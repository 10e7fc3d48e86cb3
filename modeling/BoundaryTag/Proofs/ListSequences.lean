import BoundaryTag.Plan.Representation
import BoundaryTag.Proofs.TotalWrites

/-!
# ListSequences — lists as sequences of addresses

What the links of the free lists say about sequences of addresses.

* `Strung` is `Threads` from a block onwards. A stretch can be cut out anywhere (`Strung.cut`), and
  a block put in front (`Strung.push`). There is one such sequence only (`Strung.unique`).
* `Represents` says that the links of all classes are those of some sequences, whose blocks and
  sentinels have two links each and share none.
* `Represents.remove` and `Represents.insert`: the operations on the lists are those on the
  sequences, and change nothing but links. Which links they set is told by
  `Represents.remove_between` and `Represents.insert_front`.
-/

namespace BoundaryTag

namespace FreeLists

open Links

/-- The links from the block at `a` on lead through `nodes` and back. -/
def Strung (l : FreeLists) (r : Region) (a : Nat) (nodes : List Nat) : Prop :=
  l.Threads r a (l.links.linkAt r (a + 4)) nodes

variable {l : FreeLists} {r s : Region} {a b x : Nat} {nodes l₁ l₂ : List Nat}

theorem strung_nil : l.Strung r a [] ↔ l.links.linkAt r (a + 4) = none := Iff.rfl

/-! ## One list -/

theorem Strung.next (h : l.Strung r a nodes) : l.links.linkAt r (a + 4) = nodes.head? := by
  cases nodes with
  | nil => exact h
  | cons b nodes => exact h.1

theorem Strung.append (h : l.Strung r a (l₁ ++ x :: l₂)) :
    l.links.linkAt r x = some (l₁.getLastD a) ∧ l.Strung r x l₂ := by
  induction l₁ generalizing a with
  | nil => exact h.2
  | cons b l₁ ih =>
      have := ih h.2.2
      rw [List.getLastD_cons]
      exact this

theorem Strung.congr (h : l.Strung r a nodes)
    (hnext : ∀ y ∈ a :: nodes, l.links.linkAt s (y + 4) = l.links.linkAt r (y + 4))
    (hprev : ∀ y ∈ nodes, l.links.linkAt s y = l.links.linkAt r y) : l.Strung s a nodes := by
  induction nodes generalizing a with
  | nil => exact (hnext a List.mem_cons_self).trans h
  | cons b nodes ih =>
      rcases h with ⟨hab, hba, hrest⟩
      refine ⟨(hnext a List.mem_cons_self).trans hab, (hprev b List.mem_cons_self).trans hba, ?_⟩
      exact ih hrest (fun y hy => hnext y (List.mem_cons_of_mem _ hy))
        fun y hy => hprev y (List.mem_cons_of_mem _ hy)

/-- The links onwards tell where a sequence leads. -/
theorem Strung.unique {nodes' : List Nat} (h : l.Strung r a nodes) (h' : l.Strung s b nodes')
    (hfirst : l.links.linkAt s (b + 4) = l.links.linkAt r (a + 4))
    (hnext : ∀ y ∈ nodes, y ∈ nodes' → l.links.linkAt s (y + 4) = l.links.linkAt r (y + 4)) :
    nodes' = nodes := by
  -- both sequences have the same first block, and go on from there
  induction nodes generalizing a b nodes' with
  | nil =>
      have hhead := h'.next
      rw [hfirst, h.next] at hhead
      exact List.head?_eq_none_iff.1 hhead.symm
  | cons c nodes ih =>
      have hhead := h'.next
      rw [hfirst, h.next] at hhead
      rcases List.head?_eq_some_iff.1 hhead.symm with ⟨tail, rfl⟩
      have hrest := ih h.2.2 h'.2.2 (hnext c List.mem_cons_self List.mem_cons_self)
        fun y hy hy' => hnext y (List.mem_cons_of_mem _ hy) (List.mem_cons_of_mem _ hy')
      rw [hrest]

/-- A block comes in front when it, its list and the old first block link to each other. -/
theorem Strung.push (h : l.Strung r a nodes) (hnext : l.links.linkAt s (a + 4) = some x)
    (hprev : l.links.linkAt s x = some a) (hafter : l.links.linkAt s (x + 4) = nodes.head?)
    (hfirst : ∀ y ∈ nodes.head?, l.links.linkAt s y = some x)
    (hkeep : ∀ y ∈ nodes, l.links.linkAt s (y + 4) = l.links.linkAt r (y + 4))
    (hback : ∀ y ∈ nodes.tail, l.links.linkAt s y = l.links.linkAt r y) :
    l.Strung s a (x :: nodes) := by
  refine ⟨hnext, hprev, ?_⟩
  cases nodes with
  | nil => exact hafter
  | cons b nodes =>
      refine ⟨hafter, hfirst b rfl, ?_⟩
      exact Strung.congr h.2.2 hkeep hback

/-- A stretch leaves when the blocks before and after it link to each other. -/
theorem Strung.cut {mid : List Nat} (h : l.Strung r a (l₁ ++ (mid ++ l₂)))
    (hnd : (a :: (l₁ ++ l₂)).Nodup) (hb : l₁.getLastD a = b)
    (hnext : l.links.linkAt s (b + 4) = l₂.head?)
    (hprev : ∀ y ∈ l₂.head?, l.links.linkAt s y = some b)
    (hkeep : ∀ y ∈ a :: (l₁ ++ l₂), y ≠ b → l.links.linkAt s (y + 4) = l.links.linkAt r (y + 4))
    (hback : ∀ y ∈ l₁ ++ l₂, y ∉ l₂.head? → l.links.linkAt s y = l.links.linkAt r y) :
    l.Strung s a (l₁ ++ l₂) := by
  induction l₁ generalizing a with
  | nil =>
      cases hb
      cases l₂ with
      | nil => exact hnext
      | cons c l₂ =>
          have hrest := (Strung.append h).2
          refine ⟨hnext, hprev c rfl, ?_⟩
          rw [List.nil_append] at hnd
          -- the rest keeps its links because its blocks are other ones
          have hne : ∀ y ∈ c :: l₂, y ≠ a := by
            intro y hy hya
            exact (List.nodup_cons.1 hnd).1 (hya ▸ hy)
          have hc : c ∉ l₂ := (List.nodup_cons.1 (List.nodup_cons.1 hnd).2).1
          refine Strung.congr hrest (fun y hy => ?_) fun y hy => ?_
          · exact hkeep y (List.mem_cons_of_mem _ hy) (hne y hy)
          · refine hback y (List.mem_cons_of_mem _ hy) fun hyc => ?_
            cases hyc
            exact hc hy
  | cons d l₁ ih =>
      rcases h with ⟨had, hda, hrest⟩
      rw [List.getLastD_cons] at hb
      rw [List.cons_append] at hnd
      rcases List.nodup_cons.1 hnd with ⟨ha, hnd'⟩
      -- the stretch is further on, so the links between `a` and `d` stay
      have hbmem : b ∈ d :: l₁ := hb ▸ List.getLastD_mem_cons
      have hab : a ≠ b := by
        rintro rfl
        exact ha (List.mem_append_left l₂ hbmem)
      have hd : d ∉ l₂.head? := by
        intro hd
        have hdl : d ∈ l₂ := List.mem_of_mem_head? hd
        exact (List.nodup_cons.1 hnd').1 (List.mem_append_right _ hdl)
      refine ⟨(hkeep a List.mem_cons_self hab).trans had,
        (hback d List.mem_cons_self hd).trans hda, ?_⟩
      exact ih hrest hnd' hb (fun y hy => hkeep y (List.mem_cons_of_mem _ hy))
        fun y hy => hback y (List.mem_cons_of_mem _ hy)

/-! ## All lists -/

/-- The region after the blocks at `b` and `a` were linked to each other. -/
def unlink (l : FreeLists) (r : Region) (b : Nat) : Option Nat → Region
  | none => r.setWord (b + 4) (l.links.code none)
  | some a => (r.setWord a (l.links.code (some b))).setWord (b + 4) (l.links.code (some a))

/-- The region after the block at `bp` was put between `head` and `old`. -/
def pushFront (l : FreeLists) (r : Region) (bp head : Nat) : Option Nat → Region
  | none =>
    ((r.setWord (bp + 4) (l.links.code none)).setWord bp (l.links.code (some head))).setWord
      (head + 4) (l.links.code (some bp))
  | some o =>
    (((r.setWord (bp + 4) (l.links.code (some o))).setWord bp (l.links.code (some head))).setWord
      o (l.links.code (some bp))).setWord (head + 4) (l.links.code (some bp))

/-- A place for two links that a link can lead to. -/
def Spot (l : FreeLists) (r : Region) (x : Nat) : Prop :=
  l.base < x ∧ x - l.base < 0x100000000 ∧ x + 8 ≤ r.size

/-- The links of all classes are those of `lists`. -/
structure Represents (l : FreeLists) (r : Region) (lists : Nat → List Nat) : Prop where
  strung : ∀ k < SizeClass.count, l.Strung r (l.sentinelAt k) (lists k)
  nodup : ∀ k < SizeClass.count, (l.sentinelAt k :: lists k).Nodup
  apart : ∀ j < SizeClass.count, ∀ k < SizeClass.count, ∀ x ∈ l.sentinelAt j :: lists j,
    ∀ y ∈ l.sentinelAt k :: lists k, (j = k ∧ x = y) ∨ x + 8 ≤ y ∨ y + 8 ≤ x
  room : ∀ k < SizeClass.count, ∀ x ∈ l.sentinelAt k :: lists k, l.Spot r x

theorem Spot.reaches (h : l.Spot r x) : l.links.Reaches (some x) := by
  intro a ha
  cases ha
  exact ⟨h.1, h.2.1⟩

theorem reaches_of_spot {o : Option Nat} (h : ∀ a ∈ o, l.Spot r a) : l.links.Reaches o := by
  cases o with
  | none => exact reaches_none _
  | some a => exact (h a rfl).reaches

theorem Spot.base_lt (h : l.Spot r x) : l.links.base < 0x8000000000000000 := by
  have hr := r.size_lt
  have hx : l.base < x := h.1
  have hs := h.2.2
  show l.base < 0x8000000000000000
  omega

theorem Spot.of_size (h : l.Spot r x) (hs : r.size ≤ s.size) : l.Spot s x :=
  ⟨h.1, h.2.1, Nat.le_trans h.2.2 hs⟩

theorem sentinel_eq {k : Nat} (hk : k < SizeClass.count) (h : l.Spot r (l.sentinelAt k)) :
    l.sentinel k = .ok (l.sentinelAt k) := by
  have hr := r.size_lt
  have hs := h.2.2
  rw [sentinelAt] at hs
  rw [sentinel, Fault.require_eq _ hk, Fault.ok_bind, Address.add_eq (by omega), sentinelAt]

theorem remove_eq {o : Option Nat} (hx : l.Spot r x) (hb : l.links.linkAt r x = some b)
    (hbs : l.Spot r b) (ho : l.links.linkAt r (x + 4) = o) (hos : ∀ a ∈ o, l.Spot r a) :
    l.remove r x = .ok (l.unlink r b o) := by
  have hxs := hx.2.2
  rw [remove, previous_eq hx.base_lt (by omega), Fault.ok_bind, next_eq hx.base_lt hxs,
    Fault.ok_bind, hb, ho]
  cases o with
  | none => exact setNext_eq (reaches_none _) hbs.2.2
  | some a =>
      have has := (hos a rfl).2.2
      have hfirst : l.links.setPrevious r a (some b) = .ok (r.setWord a (l.links.code (some b))) :=
        setPrevious_eq hbs.reaches (by omega)
      simp only
      rw [hfirst, Fault.ok_bind,
        setNext_eq (hos a rfl).reaches (by rw [Region.size_setWord]; exact hbs.2.2)]
      rfl

theorem insert_eq {n k bp : Nat} {o : Option Nat} (hk : SizeClass.of n = k)
    (hh : l.Spot r (l.sentinelAt k)) (hbp : l.Spot r bp)
    (ho : l.links.linkAt r (l.sentinelAt k + 4) = o) (hos : ∀ a ∈ o, l.Spot r a) :
    l.insert r bp n = .ok (l.pushFront r bp (l.sentinelAt k) o) := by
  have hkc : k < SizeClass.count := hk ▸ SizeClass.of_lt_count n
  have hbps := hbp.2.2
  rw [insert, hk, sentinel_eq hkc hh, Fault.ok_bind, next_eq hh.base_lt hh.2.2, Fault.ok_bind, ho,
    setNext_eq (reaches_of_spot hos) hbps, Fault.ok_bind,
    setPrevious_eq hh.reaches (by rw [Region.size_setWord]; omega), Fault.ok_bind]
  cases o with
  | none =>
      exact setNext_eq hbp.reaches (by simp only [Region.size_setWord]; exact hh.2.2)
  | some a =>
      have has := (hos a rfl).2.2
      simp only
      rw [setPrevious_eq hbp.reaches (by simp only [Region.size_setWord]; omega), Fault.ok_bind,
        setNext_eq hbp.reaches (by simp only [Region.size_setWord]; exact hh.2.2)]
      rfl

/-! ## Which bytes change -/

@[simp] theorem size_unlink (b : Nat) (o : Option Nat) : (l.unlink r b o).size = r.size := by
  cases o <;> simp [unlink]

@[simp] theorem size_pushFront (bp head : Nat) (o : Option Nat) :
    (l.pushFront r bp head o).size = r.size := by
  cases o <;> simp [pushFront]

theorem byte_unlink {o : Option Nat} {i : Nat} (hb : i < b + 4 ∨ b + 4 + 4 ≤ i)
    (ho : ∀ a ∈ o, i < a ∨ a + 4 ≤ i) : (l.unlink r b o).byte i = r.byte i := by
  cases o with
  | none => exact Region.byte_setWord_of_ne hb
  | some a =>
      rw [unlink, Region.byte_setWord_of_ne hb, Region.byte_setWord_of_ne (ho a rfl)]

theorem byte_pushFront {bp head : Nat} {o : Option Nat} {i : Nat} (hbp : i < bp ∨ bp + 8 ≤ i)
    (hh : i < head + 4 ∨ head + 4 + 4 ≤ i) (ho : ∀ a ∈ o, i < a ∨ a + 4 ≤ i) :
    (l.pushFront r bp head o).byte i = r.byte i := by
  cases o with
  | none =>
      rw [pushFront, Region.byte_setWord_of_ne hh, Region.byte_setWord_of_ne (by omega),
        Region.byte_setWord_of_ne (by omega)]
  | some a =>
      rw [pushFront, Region.byte_setWord_of_ne hh, Region.byte_setWord_of_ne (ho a rfl),
        Region.byte_setWord_of_ne (by omega), Region.byte_setWord_of_ne (by omega)]

/-! ## Which links come about -/

theorem linkAt_unlink_next {o : Option Nat} (hb : l.Spot r b) (ho : ∀ a ∈ o, l.Spot r a) :
    l.links.linkAt (l.unlink r b o) (b + 4) = o := by
  have hbs := hb.2.2
  cases o with
  | none => exact linkAt_setWord (reaches_none _) (by omega)
  | some a =>
      exact linkAt_setWord (ho a rfl).reaches (by rw [Region.size_setWord]; omega)

theorem linkAt_unlink_prev {o : Option Nat} (ha : a ∈ o) (hb : l.Spot r b) (has : l.Spot r a)
    (hab : a ≤ b ∨ b + 8 ≤ a) : l.links.linkAt (l.unlink r b o) a = some b := by
  have hs := has.2.2
  cases o with
  | none => cases ha
  | some c =>
      cases ha
      rw [unlink, linkAt_setWord_of_disjoint (by omega)]
      exact linkAt_setWord hb.reaches (by omega)

theorem linkAt_pushFront_head {bp head : Nat} {o : Option Nat} (hh : l.Spot r head)
    (hbp : l.Spot r bp) : l.links.linkAt (l.pushFront r bp head o) (head + 4) = some bp := by
  have hs := hh.2.2
  cases o with
  | none => exact linkAt_setWord hbp.reaches (by simp only [Region.size_setWord]; omega)
  | some a => exact linkAt_setWord hbp.reaches (by simp only [Region.size_setWord]; omega)

theorem linkAt_pushFront_prev {bp head : Nat} {o : Option Nat} (hh : l.Spot r head)
    (hbp : l.Spot r bp) (hbh : bp + 8 ≤ head ∨ head + 8 ≤ bp)
    (hbo : ∀ a ∈ o, a + 8 ≤ bp ∨ bp + 8 ≤ a) :
    l.links.linkAt (l.pushFront r bp head o) bp = some head := by
  have hs := hbp.2.2
  have hw : l.links.linkAt ((r.setWord (bp + 4) (l.links.code o)).setWord bp
      (l.links.code (some head))) bp = some head :=
    linkAt_setWord hh.reaches (by rw [Region.size_setWord]; omega)
  cases o with
  | none => rw [pushFront, linkAt_setWord_of_disjoint (by omega), hw]
  | some a =>
      have := hbo a rfl
      rw [pushFront, linkAt_setWord_of_disjoint (by omega), linkAt_setWord_of_disjoint (by omega),
        hw]

theorem linkAt_pushFront_next {bp head : Nat} {o : Option Nat} (ho : ∀ a ∈ o, l.Spot r a)
    (hbp : l.Spot r bp) (hbh : bp + 8 ≤ head ∨ head + 8 ≤ bp)
    (hbo : ∀ a ∈ o, a ≤ bp ∨ bp + 8 ≤ a) :
    l.links.linkAt (l.pushFront r bp head o) (bp + 4) = o := by
  have hs := hbp.2.2
  have hw : l.links.linkAt (r.setWord (bp + 4) (l.links.code o)) (bp + 4) = o :=
    linkAt_setWord (reaches_of_spot ho) (by omega)
  cases o with
  | none =>
      rw [pushFront, linkAt_setWord_of_disjoint (by omega), linkAt_setWord_of_disjoint (by omega),
        hw]
  | some a =>
      have := hbo a rfl
      rw [pushFront, linkAt_setWord_of_disjoint (by omega), linkAt_setWord_of_disjoint (by omega),
        linkAt_setWord_of_disjoint (by omega), hw]

theorem linkAt_pushFront_first {bp head : Nat} {o : Option Nat} (ha : a ∈ o) (hbp : l.Spot r bp)
    (has : l.Spot r a) (hha : head + 8 ≤ a ∨ a + 8 ≤ head) :
    l.links.linkAt (l.pushFront r bp head o) a = some bp := by
  have hs := has.2.2
  cases o with
  | none => cases ha
  | some c =>
      cases ha
      rw [pushFront, linkAt_setWord_of_disjoint (by omega)]
      exact linkAt_setWord hbp.reaches (by simp only [Region.size_setWord]; omega)

/-! ## Which links change -/

variable {lists : Nat → List Nat} {j k y n bp : Nat} {o : Option Nat}

theorem mem_drop {i m : Nat} : y ∈ Plan.drop lists i m k ↔ y ∈ lists k ∧ ¬(i ≤ y ∧ y < m) := by
  rw [Plan.drop, List.mem_filter, decide_eq_true_iff]

theorem drop_eq_self {i m : Nat} (h : ∀ y ∈ lists k, ¬(i ≤ y ∧ y < m)) :
    Plan.drop lists i m k = lists k := by
  rw [Plan.drop, List.filter_eq_self]
  exact fun y hy => decide_eq_true (h y hy)

theorem drop_drop {i m i' m' : Nat} (hi : i' ≤ i) (hm : m ≤ m') :
    Plan.drop (Plan.drop lists i m) i' m' = Plan.drop lists i' m' := by
  funext k
  rw [Plan.drop, Plan.drop, Plan.drop, List.filter_filter]
  refine List.filter_congr fun y _ => ?_
  rw [← Bool.decide_and, decide_eq_decide]
  omega

theorem drop_split (h : lists k = l₁ ++ x :: l₂) (hnd : (lists k).Nodup) :
    Plan.drop lists x (x + 1) k = l₁ ++ l₂ := by
  rw [h, List.nodup_append] at hnd
  rcases hnd with ⟨-, hnd₂, hdis⟩
  have h₁ : ∀ y ∈ l₁, y ≠ x := fun y hy => hdis y hy x List.mem_cons_self
  have h₂ : ∀ y ∈ l₂, y ≠ x := fun y hy hyx => (List.nodup_cons.1 hnd₂).1 (hyx ▸ hy)
  rw [Plan.drop, h, List.filter_append, List.filter_cons, if_neg (by simp)]
  rw [List.filter_eq_self.2 fun y hy => decide_eq_true (by have := h₁ y hy; omega),
    List.filter_eq_self.2 fun y hy => decide_eq_true (by have := h₂ y hy; omega)]

def Known (l : FreeLists) (lists : Nat → List Nat) (x : Nat) : Prop :=
  ∃ k < SizeClass.count, x ∈ l.sentinelAt k :: lists k

theorem known_sentinel (hk : k < SizeClass.count) : l.Known lists (l.sentinelAt k) :=
  ⟨k, hk, List.mem_cons_self⟩

theorem known_of_mem (hk : k < SizeClass.count) (hx : x ∈ lists k) : l.Known lists x :=
  ⟨k, hk, List.mem_cons_of_mem _ hx⟩

theorem Represents.eq_or_apart (h : l.Represents r lists) (hx : l.Known lists x)
    (hy : l.Known lists y) : x = y ∨ x + 8 ≤ y ∨ y + 8 ≤ x := by
  rcases hx with ⟨j, hj, hx⟩
  rcases hy with ⟨k, hk, hy⟩
  exact (h.apart j hj k hk x hx y hy).imp_left And.right

/-- Two lists have nothing in common. -/
theorem Represents.ne_of_class (h : l.Represents r lists) (hj : j < SizeClass.count)
    (hk : k < SizeClass.count) (hx : x ∈ l.sentinelAt j :: lists j)
    (hy : y ∈ l.sentinelAt k :: lists k) (hjk : j ≠ k) : x ≠ y := by
  rcases h.apart j hj k hk x hx y hy with hc | hc
  · exact absurd hc.1 hjk
  · omega

/-- Sentinels are in no list. -/
theorem Represents.sentinel_ne (h : l.Represents r lists) (hj : j < SizeClass.count)
    (hk : k < SizeClass.count) (hx : x ∈ lists k) : l.sentinelAt j ≠ x := by
  intro hjx
  by_cases hjk : j = k
  · subst hjk
    exact (List.nodup_cons.1 (h.nodup j hj)).1 (hjx ▸ hx)
  · exact h.ne_of_class hj hk List.mem_cons_self (List.mem_cons_of_mem _ hx) hjk hjx

theorem Represents.spot (h : l.Represents r lists) (hx : l.Known lists x) : l.Spot r x := by
  rcases hx with ⟨k, hk, hx⟩
  exact h.room k hk x hx

theorem Represents.next_unlink (h : l.Represents r lists) (hy : l.Known lists y)
    (hb : l.Known lists b) (ho : ∀ a ∈ o, l.Known lists a) (hne : y ≠ b) :
    l.links.linkAt (l.unlink s b o) (y + 4) = l.links.linkAt s (y + 4) := by
  refine linkAt_congr fun i hi hi' => byte_unlink ?_ fun a ha => ?_
  · have := h.eq_or_apart hy hb
    omega
  · have := h.eq_or_apart hy (ho a ha)
    omega

theorem Represents.prev_unlink (h : l.Represents r lists) (hy : l.Known lists y)
    (hb : l.Known lists b) (ho : ∀ a ∈ o, l.Known lists a) (hne : y ∉ o) :
    l.links.linkAt (l.unlink s b o) y = l.links.linkAt s y := by
  refine linkAt_congr fun i hi hi' => byte_unlink ?_ fun a ha => ?_
  · have := h.eq_or_apart hy hb
    omega
  · have hya : y ≠ a := fun hya => hne (hya ▸ ha)
    have := h.eq_or_apart hy (ho a ha)
    omega

/-- The byte at `i` is in a link of the lists. -/
def Touches (l : FreeLists) (lists : Nat → List Nat) (i : Nat) : Prop :=
  ∃ k < SizeClass.count, ∃ x ∈ l.sentinelAt k :: lists k, x ≤ i ∧ i < x + 8

/-! ## Taking blocks out -/

def withList (lists : Nat → List Nat) (k : Nat) (nodes : List Nat) : Nat → List Nat :=
  fun j => if j = k then nodes else lists j

/-- There are so many classes and no more. -/
theorem Represents.of_eq {lists' : Nat → List Nat} (h : l.Represents r lists)
    (he : ∀ j < SizeClass.count, lists' j = lists j) : l.Represents r lists' := by
  refine ⟨fun j hj => ?_, fun j hj => ?_, fun i hi j hj => ?_, fun j hj => ?_⟩
  · rw [he j hj]
    exact h.strung j hj
  · rw [he j hj]
    exact h.nodup j hj
  · rw [he i hi, he j hj]
    exact h.apart i hi j hj
  · rw [he j hj]
    exact h.room j hj

theorem Touches.of_eq {lists' : Nat → List Nat} {i : Nat} (h : l.Touches lists i)
    (he : ∀ j < SizeClass.count, lists' j = lists j) : l.Touches lists' i := by
  rcases h with ⟨j, hj, y, hy, hi⟩
  exact ⟨j, hj, y, (he j hj).symm ▸ hy, hi⟩

theorem withList_sublist {nodes : List Nat} (h : nodes.Sublist (lists k)) :
    (withList lists k nodes j).Sublist (lists j) := by
  unfold withList
  split
  case isTrue hj => exact hj ▸ h
  case isFalse => exact List.Sublist.refl _

theorem withList_withList {nodes nodes' : List Nat} :
    withList (withList lists k nodes) k nodes' = withList lists k nodes' := by
  funext j
  unfold withList
  split <;> rfl

theorem withList_subset {nodes nodes' : List Nat} (h : nodes ⊆ nodes') :
    withList lists k nodes j ⊆ withList lists k nodes' j := by
  unfold withList
  split
  case isTrue => exact h
  case isFalse => exact fun _ ha => ha

/-- The blocks before and after a stretch are linked to each other. -/
theorem Represents.strung_cut {mid : List Nat} (h : l.Represents r lists) (hk : k < SizeClass.count)
    (hsplit : lists k = l₁ ++ (mid ++ l₂)) :
    l.Strung (l.unlink r (l₁.getLastD (l.sentinelAt k)) l₂.head?) (l.sentinelAt k) (l₁ ++ l₂) := by
  have hsub : (l.sentinelAt k :: (l₁ ++ l₂)).Sublist (l.sentinelAt k :: lists k) := by
    rw [hsplit]
    exact ((List.sublist_append_right mid l₂).append_left l₁).cons_cons _
  have hknown : ∀ y ∈ l.sentinelAt k :: (l₁ ++ l₂), l.Known lists y :=
    fun y hy => ⟨k, hk, hsub.subset hy⟩
  have hb : l.Known lists (l₁.getLastD (l.sentinelAt k)) :=
    hknown _ (List.mem_append_left l₂ List.getLastD_mem_cons)
  have ho : ∀ a ∈ l₂.head?, l.Known lists a := fun a ha =>
    hknown a (List.mem_cons_of_mem _ (List.mem_append_right _ (List.mem_of_mem_head? ha)))
  have hos : ∀ a ∈ l₂.head?, l.Spot r a := fun a ha => h.spot (ho a ha)
  have hstr := h.strung k hk
  rw [hsplit] at hstr
  refine hstr.cut ((h.nodup k hk).sublist hsub) rfl (linkAt_unlink_next (h.spot hb) hos) ?_ ?_ ?_
  · intro a ha
    refine linkAt_unlink_prev ha (h.spot hb) (hos a ha) ?_
    have := h.eq_or_apart (ho a ha) hb
    omega
  · intro y hy hyb
    exact h.next_unlink (hknown y hy) hb ho hyb
  · intro y hy hya
    exact h.prev_unlink (hknown y (List.mem_cons_of_mem _ hy)) hb ho hya

/-- Another list has no block in common with the one in which two blocks are linked to each other.
-/
theorem Represents.strung_unlink {o : Option Nat} (h : l.Represents r lists)
    (hj : j < SizeClass.count) (hk : k < SizeClass.count) (hjk : j ≠ k)
    (hb : b ∈ l.sentinelAt k :: lists k) (ho : ∀ a ∈ o, a ∈ lists k) :
    l.Strung (l.unlink r b o) (l.sentinelAt j) (lists j) := by
  have hbk : l.Known lists b := ⟨k, hk, hb⟩
  have hok : ∀ a ∈ o, l.Known lists a := fun a ha => known_of_mem hk (ho a ha)
  have hne : ∀ y ∈ l.sentinelAt j :: lists j, ∀ z ∈ l.sentinelAt k :: lists k, y ≠ z :=
    fun y hy z hz => h.ne_of_class hj hk hy hz hjk
  refine (h.strung j hj).congr (fun y hy => ?_) fun y hy => ?_
  · exact h.next_unlink ⟨j, hj, hy⟩ hbk hok (hne y hy b hb)
  · have hy' := List.mem_cons_of_mem (l.sentinelAt j) hy
    exact h.prev_unlink ⟨j, hj, hy'⟩ hbk hok fun hc =>
      hne y hy' y (List.mem_cons_of_mem _ (ho y hc)) rfl

/-- Linking the blocks before and after a stretch to each other takes it out of its sequence. -/
theorem Represents.cut {mid : List Nat} (h : l.Represents r lists) (hk : k < SizeClass.count)
    (hsplit : lists k = l₁ ++ (mid ++ l₂)) :
    l.Represents (l.unlink r (l₁.getLastD (l.sentinelAt k)) l₂.head?) (withList lists k (l₁ ++ l₂))
      ∧ ∀ i, ¬l.Touches (withList lists k (l₁ ++ l₂)) i →
        (l.unlink r (l₁.getLastD (l.sentinelAt k)) l₂.head?).byte i = r.byte i := by
  have hsub : (l₁ ++ l₂).Sublist (lists k) := by
    rw [hsplit]
    exact (List.sublist_append_right mid l₂).append_left l₁
  have hin : ∀ j, ∀ y ∈ l.sentinelAt j :: withList lists k (l₁ ++ l₂) j,
      y ∈ l.sentinelAt j :: lists j :=
    fun j y hy => ((withList_sublist hsub).cons_cons _).subset hy
  have hself : withList lists k (l₁ ++ l₂) k = l₁ ++ l₂ := if_pos rfl
  -- what comes before and after is in the same list
  have hb : l₁.getLastD (l.sentinelAt k) ∈ l.sentinelAt k :: (l₁ ++ l₂) :=
    List.mem_append_left l₂ List.getLastD_mem_cons
  have ho : ∀ a ∈ l₂.head?, a ∈ l₁ ++ l₂ :=
    fun a ha => List.mem_append_right _ (List.mem_of_mem_head? ha)
  refine ⟨⟨fun j hj => ?_, fun j hj => (h.nodup j hj).sublist ((withList_sublist hsub).cons_cons _),
    fun i hi j hj y hy z hz => h.apart i hi j hj y (hin i y hy) z (hin j z hz),
    fun j hj y hy => (h.room j hj y (hin j y hy)).of_size (Nat.le_of_eq (size_unlink _ _).symm)⟩,
    fun i hi => ?_⟩
  · by_cases hjk : j = k
    · subst hjk
      rw [hself]
      exact h.strung_cut hj hsplit
    · have hother : withList lists k (l₁ ++ l₂) j = lists j := if_neg hjk
      rw [hother]
      exact h.strung_unlink hj hk hjk ((hsub.cons_cons _).subset hb)
        fun a ha => hsub.subset (ho a ha)
  · have hout : ∀ y ∈ l.sentinelAt k :: (l₁ ++ l₂), ¬(y ≤ i ∧ i < y + 8) :=
      fun y hy hyi => hi ⟨k, hk, y, hself.symm ▸ hy, hyi⟩
    refine byte_unlink ?_ fun a ha => ?_
    · have := hout _ hb
      omega
    · have := hout a (List.mem_cons_of_mem _ (ho a ha))
      omega

/-- Taking a block out links the blocks before and after it to each other. -/
theorem Represents.remove_between (h : l.Represents r lists) (hk : k < SizeClass.count)
    (hsplit : lists k = l₁ ++ x :: l₂) :
    l.remove r x = .ok (l.unlink r (l₁.getLastD (l.sentinelAt k)) l₂.head?) := by
  have hstr := h.strung k hk
  have hspot := h.room k hk
  rw [hsplit] at hstr hspot
  rcases hstr.append with ⟨hback, hrest⟩
  have hx : x ∈ l₁ ++ x :: l₂ := List.mem_append_right _ List.mem_cons_self
  have hb : l₁.getLastD (l.sentinelAt k) ∈ l.sentinelAt k :: (l₁ ++ x :: l₂) :=
    List.mem_append_left _ List.getLastD_mem_cons
  have ho : ∀ a ∈ l₂.head?, a ∈ l₁ ++ x :: l₂ := fun a ha =>
    List.mem_append_right _ (List.mem_cons_of_mem _ (List.mem_of_mem_head? ha))
  exact remove_eq (hspot x (List.mem_cons_of_mem _ hx)) hback (hspot _ hb) hrest.next
    fun a ha => hspot a (List.mem_cons_of_mem _ (ho a ha))

/-- Taking a block out of its list takes it out of its sequence. -/
theorem Represents.remove (h : l.Represents r lists) (hk : k < SizeClass.count) (hx : x ∈ lists k) :
    ∃ s, l.remove r x = .ok s ∧ s.size = r.size ∧ l.Represents s (Plan.drop lists x (x + 1))
      ∧ ∀ i, ¬l.Touches (Plan.drop lists x (x + 1)) i → s.byte i = r.byte i := by
  rcases List.append_of_mem hx with ⟨l₁, l₂, hsplit⟩
  have hdrop : ∀ j < SizeClass.count,
      Plan.drop lists x (x + 1) j = withList lists k (l₁ ++ l₂) j := by
    intro j hj
    unfold withList
    split
    case isTrue hjk => rw [hjk, drop_split hsplit (List.nodup_cons.1 (h.nodup k hk)).2]
    case isFalse =>
      refine drop_eq_self fun y hy hyx => ?_
      have := h.apart j hj k hk y (List.mem_cons_of_mem _ hy) x (List.mem_cons_of_mem _ hx)
      omega
  -- it is a stretch of one block
  have hone : lists k = l₁ ++ ([x] ++ l₂) := hsplit
  rcases h.cut hk hone with ⟨hcut, hbyte⟩
  exact ⟨_, h.remove_between hk hsplit, size_unlink _ _, hcut.of_eq hdrop,
    fun i hi => hbyte i fun hc => hi (hc.of_eq hdrop)⟩

/-! ## Putting a block in front -/

/-- A block that shares no byte with the links of the lists. -/
def Fresh (l : FreeLists) (lists : Nat → List Nat) (bp : Nat) : Prop :=
  ∀ k < SizeClass.count, ∀ y ∈ l.sentinelAt k :: lists k, y + 8 ≤ bp ∨ bp + 8 ≤ y

theorem Represents.next_pushFront (h : l.Represents r lists) (hj : j < SizeClass.count)
    (hk : k < SizeClass.count) (hy : y ∈ l.sentinelAt j :: lists j) (hbp : l.Fresh lists bp)
    (ho : ∀ a ∈ o, a ∈ lists k) (hne : ¬(j = k ∧ y = l.sentinelAt k)) :
    l.links.linkAt (l.pushFront r bp (l.sentinelAt k) o) (y + 4) = l.links.linkAt r (y + 4) := by
  have hfresh := hbp j hj y hy
  have hya := h.apart j hj k hk y hy
  refine linkAt_congr fun i hi hi' => byte_pushFront (by omega) ?_ fun a ha => ?_
  · have := hya _ List.mem_cons_self
    omega
  · have := hya a (List.mem_cons_of_mem _ (ho a ha))
    omega

theorem Represents.prev_pushFront (h : l.Represents r lists) (hj : j < SizeClass.count)
    (hk : k < SizeClass.count) (hy : y ∈ l.sentinelAt j :: lists j) (hbp : l.Fresh lists bp)
    (ho : ∀ a ∈ o, a ∈ lists k) (hne : ∀ a ∈ o, ¬(j = k ∧ y = a)) :
    l.links.linkAt (l.pushFront r bp (l.sentinelAt k) o) y = l.links.linkAt r y := by
  have hfresh := hbp j hj y hy
  have hya := h.apart j hj k hk y hy
  refine linkAt_congr fun i hi hi' => byte_pushFront (by omega) ?_ fun a ha => ?_
  · have := hya _ List.mem_cons_self
    omega
  · have hyo := hya a (List.mem_cons_of_mem _ (ho a ha))
    have := hne a ha
    omega

theorem mem_push : y ∈ Plan.push lists bp n j ↔ (j = SizeClass.of n ∧ y = bp) ∨ y ∈ lists j := by
  rw [Plan.push]
  split
  case isTrue h => simp [h]
  case isFalse h => simp [h]

theorem Fresh.ne (hfresh : l.Fresh lists bp) (hj : j < SizeClass.count)
    (hy : y ∈ l.sentinelAt j :: lists j) : y ≠ bp := by
  rintro rfl
  have := hfresh j hj y hy
  omega

theorem Represents.strung_pushFront (h : l.Represents r lists) (hk : k < SizeClass.count)
    (hbp : l.Spot r bp) (hfresh : l.Fresh lists bp) :
    l.Strung (l.pushFront r bp (l.sentinelAt k) (lists k).head?) (l.sentinelAt k)
      (bp :: lists k) := by
  have hnd := List.nodup_cons.1 (h.nodup k hk)
  have hhead : l.sentinelAt k ∈ l.sentinelAt k :: lists k := List.mem_cons_self
  have hin : ∀ a ∈ lists k, a ∈ l.sentinelAt k :: lists k := fun a ha => List.mem_cons_of_mem _ ha
  have hor : ∀ a ∈ (lists k).head?, a ∈ lists k := fun a ha => List.mem_of_mem_head? ha
  have hos : ∀ a ∈ (lists k).head?, l.Spot r a := fun a ha => h.room k hk a (hin a (hor a ha))
  have hfo : ∀ a ∈ (lists k).head?, a + 8 ≤ bp ∨ bp + 8 ≤ a :=
    fun a ha => hfresh k hk a (hin a (hor a ha))
  have hfh : bp + 8 ≤ l.sentinelAt k ∨ l.sentinelAt k + 8 ≤ bp := (hfresh k hk _ hhead).symm
  refine (h.strung k hk).push ?_ ?_ ?_ ?_ ?_ ?_
  · exact linkAt_pushFront_head (h.room k hk _ hhead) hbp
  · exact linkAt_pushFront_prev (h.room k hk _ hhead) hbp hfh hfo
  · refine linkAt_pushFront_next hos hbp hfh fun a ha => ?_
    have := hfo a ha
    omega
  · intro a ha
    refine linkAt_pushFront_first ha hbp (hos a ha) ?_
    rcases h.apart k hk k hk _ hhead a (hin a (hor a ha)) with heq | hle | hle
    · exact absurd (heq.2 ▸ hor a ha) hnd.1
    · exact .inl hle
    · exact .inr hle
  · intro y hy
    exact h.next_pushFront hk hk (hin y hy) hfresh hor fun hc => hnd.1 (hc.2 ▸ hy)
  · intro y hy
    refine h.prev_pushFront hk hk (hin y (List.mem_of_mem_tail hy)) hfresh hor ?_
    rintro a ha ⟨-, rfl⟩
    -- the first block does not come again among the others
    cases hl : lists k with
    | nil =>
        rw [hl] at ha
        cases ha
    | cons c rest =>
        rw [hl] at ha hy hnd
        cases ha
        exact (List.nodup_cons.1 hnd.2).1 hy

/-- Putting a block into a list puts it between the sentinel and the first block. -/
theorem Represents.insert_front (h : l.Represents r lists) (hbp : l.Spot r bp) :
    l.insert r bp n = .ok (l.pushFront r bp (l.sentinelAt (SizeClass.of n))
      (lists (SizeClass.of n)).head?) := by
  have hk := SizeClass.of_lt_count n
  exact insert_eq rfl (h.room _ hk _ List.mem_cons_self) hbp (h.strung _ hk).next
    fun a ha => h.room _ hk a (List.mem_cons_of_mem _ (List.mem_of_mem_head? ha))

/-- Putting a block into a list puts it in front of its sequence. -/
theorem Represents.insert (h : l.Represents r lists) (hbp : l.Spot r bp)
    (hfresh : l.Fresh lists bp) :
    ∃ s, l.insert r bp n = .ok s ∧ s.size = r.size ∧ l.Represents s (Plan.push lists bp n)
      ∧ ∀ i, ¬l.Touches (Plan.push lists bp n) i → s.byte i = r.byte i := by
  have hk := SizeClass.of_lt_count n
  have hor : ∀ a ∈ (lists (SizeClass.of n)).head?, a ∈ lists (SizeClass.of n) :=
    fun a ha => List.mem_of_mem_head? ha
  have hsub : ∀ j, ∀ y ∈ l.sentinelAt j :: Plan.push lists bp n j,
      (j = SizeClass.of n ∧ y = bp) ∨ y ∈ l.sentinelAt j :: lists j := by
    intro j y hy
    rcases List.mem_cons.1 hy with rfl | hy
    · exact .inr List.mem_cons_self
    · exact (mem_push.1 hy).imp_right (List.mem_cons_of_mem _)
  -- the new block is the only one that was not known before
  refine ⟨_, h.insert_front hbp, size_pushFront _ _ _, ?_, fun i hi => ?_⟩
  · refine ⟨fun j hj => ?_, fun j hj => ?_, fun i hi j hj y hy z hz => ?_, fun j hj y hy => ?_⟩
    · rw [Plan.push]
      split
      case isTrue hjk =>
        subst hjk
        exact h.strung_pushFront hj hbp hfresh
      case isFalse hjk =>
        refine (h.strung j hj).congr (fun y hy => ?_) fun y hy => ?_
        · exact h.next_pushFront hj hk hy hfresh hor fun hc => hjk hc.1
        · exact h.prev_pushFront hj hk (List.mem_cons_of_mem _ hy) hfresh hor fun _ _ hc => hjk hc.1
    · rw [Plan.push]
      split
      case isTrue =>
        have hnd := List.nodup_cons.1 (h.nodup j hj)
        refine List.nodup_cons.2 ⟨fun hm => ?_, List.nodup_cons.2 ⟨fun hm => ?_, hnd.2⟩⟩
        · rcases List.mem_cons.1 hm with hm | hm
          · exact hfresh.ne hj List.mem_cons_self hm
          · exact hnd.1 hm
        · exact hfresh.ne hj (List.mem_cons_of_mem _ hm) rfl
      case isFalse => exact h.nodup j hj
    · rcases hsub i y hy with ⟨hik, rfl⟩ | hy' <;> rcases hsub j z hz with ⟨hjk, rfl⟩ | hz'
      · exact .inl ⟨hik.trans hjk.symm, rfl⟩
      · exact .inr (hfresh j hj z hz').symm
      · exact .inr (hfresh i hi y hy')
      · exact h.apart i hi j hj y hy' z hz'
    · rcases hsub j y hy with ⟨-, rfl⟩ | hy
      · exact hbp.of_size (Nat.le_of_eq (size_pushFront _ _ _).symm)
      · exact (h.room j hj y hy).of_size (Nat.le_of_eq (size_pushFront _ _ _).symm)
  · have hout : ∀ y ∈ l.sentinelAt (SizeClass.of n) :: Plan.push lists bp n (SizeClass.of n),
        ¬(y ≤ i ∧ i < y + 8) := fun y hy hyi => hi ⟨_, hk, y, hy, hyi⟩
    refine byte_pushFront ?_ ?_ fun a ha => ?_
    · have := hout bp (List.mem_cons_of_mem _ (mem_push.2 (.inl ⟨rfl, rfl⟩)))
      omega
    · have := hout _ List.mem_cons_self
      omega
    · have := hout a (List.mem_cons_of_mem _ (mem_push.2 (.inr (hor a ha))))
      omega

/-- The lists depend on the bytes of their links only. -/
theorem Represents.congr (h : l.Represents r lists) (hsize : r.size ≤ s.size)
    (hs : ∀ k < SizeClass.count, ∀ y ∈ l.sentinelAt k :: lists k, ∀ i, y ≤ i → i < y + 8 →
      s.byte i = r.byte i) : l.Represents s lists := by
  refine ⟨fun k hk => (h.strung k hk).congr (fun y hy => ?_) fun y hy => ?_, h.nodup, h.apart,
    fun k hk y hy => (h.room k hk y hy).of_size hsize⟩
  · exact linkAt_congr fun i hi hi' => hs k hk y hy i (by omega) (by omega)
  · exact linkAt_congr fun i hi hi' => hs k hk y (List.mem_cons_of_mem _ hy) i hi (by omega)

end FreeLists

end BoundaryTag
