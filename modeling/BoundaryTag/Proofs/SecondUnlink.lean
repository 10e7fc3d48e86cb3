import BoundaryTag.Proofs.ListSequences

/-!
# SecondUnlink — blocks that leave their list twice

A block that leaves its list keeps its links. When it leaves once more, the blocks that were on
either side of it then are linked to each other now, wherever they have gone.

* `Dangling` describes such a block, and another one that has come to the front of a list since.
* `BothLeave` relates the regions before, between and after two departures.
* `Rejoins` says when the block may leave again and the one in front after it, and `rejoined` what
  they leave behind (`Dangling.rejoins`).
* Otherwise some sentinel still leads to a block that is no longer its own (`Dangling.strays`).
-/

namespace BoundaryTag

namespace FreeLists

open Links

/-- The block at `x` is in front of the list for the class `j`. The one at `y` is in no list, but
has the links that it had between `l₁` and `l₂` in the list for the class `k`, from which only the
block at `x` may have gone. -/
structure Dangling (l : FreeLists) (r : Region) (rest : Nat → List Nat) (x y j k : Nat)
    (l₁ l₂ : List Nat) : Prop where
  lists : l.Represents r (withList rest j (x :: rest j))
  front : j < SizeClass.count
  class_lt : k < SizeClass.count
  rest : rest k = l₁.filter (· ≠ x) ++ l₂.filter (· ≠ x)
  nodup : (l₁ ++ l₂).Nodup
  spot : l.Spot r y
  back : l.links.linkAt r y = some (l₁.getLastD (l.sentinelAt k))
  next : l.links.linkAt r (y + 4) = l₂.head?

/-- The block at `x` was not beside the block that leaves twice, or it has come to where its links
are right again. -/
structure Rejoins (x j k : Nat) (l₁ l₂ : List Nat) : Prop where
  after : l₂.head? = some x → j = k ∧ l₁ = []
  before : l₁.getLast? = some x → j = k ∨ l₂ = []

/-- What is in the list for the class `j` when both blocks have left. -/
def rejoined (rest : Nat → List Nat) (x j : Nat) (l₁ l₂ : List Nat) : List Nat :=
  if l₁.getLast? = some x then l₂ else rest j

/-- The sentinels lead to listed blocks, if anywhere. -/
def Leads (l : FreeLists) (r : Region) (lists : Nat → List Nat) : Prop :=
  ∀ c < SizeClass.count, ∀ a ∈ l.links.linkAt r (l.sentinelAt c + 4),
    ∃ k < SizeClass.count, a ∈ lists k

theorem Represents.leads {l : FreeLists} {r : Region} {lists : Nat → List Nat}
    (h : l.Represents r lists) : l.Leads r lists := by
  intro c hc a ha
  rw [(h.strung c hc).next] at ha
  exact ⟨c, hc, List.mem_of_mem_head? ha⟩

/-- Sentinels go on to lead to listed blocks when others are linked to each other. -/
theorem Leads.unlink {l : FreeLists} {r s : Region} {lists : Nat → List Nat} {b : Nat}
    {o : Option Nat} (hs : l.Leads s lists) (h : l.Represents r lists) (hsize : s.size = r.size)
    (hb : l.Known lists b) (ho : ∀ a ∈ o, ∃ k < SizeClass.count, a ∈ lists k) :
    l.Leads (l.unlink s b o) lists := by
  have hknown : ∀ a ∈ o, l.Known lists a := by
    intro a ha
    rcases ho a ha with ⟨k, hk, hak⟩
    exact known_of_mem hk hak
  intro c hc a ha
  by_cases hcb : l.sentinelAt c = b
  · have hspot : ∀ z, l.Known lists z → l.Spot s z :=
      fun z hz => (h.spot hz).of_size (Nat.le_of_eq hsize.symm)
    rw [hcb, linkAt_unlink_next (hspot b hb) fun z hz => hspot z (hknown z hz)] at ha
    exact ho a ha
  · rw [h.next_unlink (known_sentinel hc) hb hknown hcb] at ha
    exact hs c hc a ha

/-- The blocks at `y` and at `x` leave one after the other, and only links of `lists` are written.
-/
structure BothLeave (l : FreeLists) (r s₁ s₂ : Region) (y x : Nat) (lists : Nat → List Nat) :
    Prop where
  first : l.remove r y = .ok s₁
  second : l.remove s₁ x = .ok s₂
  size : s₁.size = r.size ∧ s₂.size = r.size
  byte : ∀ i, ¬l.Touches lists i → s₁.byte i = r.byte i ∧ s₂.byte i = r.byte i

/-- The block in front has left its list, and before it the one that left twice, if there is one. -/
structure Departed (l : FreeLists) (r s : Region) (rest : Nat → List Nat) (x j k : Nat)
    (l₁ l₂ : List Nat) : Prop where
  size : s.size = r.size
  byte : ∀ i, ¬l.Touches (withList rest j (x :: rest j)) i → s.byte i = r.byte i
  leads : l.Leads s (withList rest j (x :: rest j))
  right : Rejoins x j k l₁ l₂ → l.Represents s (withList rest j (rejoined rest x j l₁ l₂))
    ∧ ∀ i, ¬l.Touches (withList rest j (x :: rejoined rest x j l₁ l₂)) i → s.byte i = r.byte i
  astray : ¬Rejoins x j k l₁ l₂ → ∃ z, l.links.linkAt s (l.sentinelAt j + 4) = some z
    ∧ (z = x ∨ (j ≠ k ∧ z ∈ rest k))

theorem getLastD_filter {x d : Nat} {nodes : List Nat} (h : nodes.getLast? ≠ some x) :
    (nodes.filter (· ≠ x)).getLastD d = nodes.getLastD d := by
  rcases List.eq_nil_or_concat nodes with rfl | ⟨init, z, heq⟩
  · rfl
  · rw [List.concat_eq_append] at heq
    subst heq
    have hz : z ≠ x := by
      rintro rfl
      exact h List.getLast?_concat
    rw [List.filter_append, List.filter_cons_of_pos (by simpa using hz), List.filter_nil,
      List.getLastD_concat, List.getLastD_concat]

theorem head?_filter {x : Nat} {nodes : List Nat} (h : nodes.head? ≠ some x) :
    (nodes.filter (· ≠ x)).head? = nodes.head? := by
  cases nodes with
  | nil => rfl
  | cons z nodes =>
      have hz : z ≠ x := by
        rintro rfl
        exact h rfl
      rw [List.filter_cons_of_pos (by simpa using hz)]
      rfl

namespace Dangling

variable {l : FreeLists} {r s : Region} {rest : Nat → List Nat} {x y z i j k : Nat}
  {l₁ l₂ nodes : List Nat}

/-! ## Who is known -/

theorem known_front (h : l.Dangling r rest x y j k l₁ l₂) :
    l.Known (withList rest j (x :: rest j)) x := by
  refine known_of_mem h.front ?_
  rw [withList, if_pos rfl]
  exact List.mem_cons_self

theorem mem_withList (hz : z ∈ rest i) : z ∈ withList rest j (x :: rest j) i := by
  unfold withList
  split
  case isTrue hij => exact List.mem_cons_of_mem _ (hij ▸ hz)
  case isFalse => exact hz

theorem known_of_rest (hi : i < SizeClass.count) (hz : z ∈ rest i) :
    l.Known (withList rest j (x :: rest j)) z :=
  known_of_mem hi (mem_withList hz)

theorem mem_cases (h : l.Dangling r rest x y j k l₁ l₂) (hz : z ∈ l₁ ++ l₂) :
    z = x ∨ z ∈ rest k := by
  by_cases hzx : z = x
  · exact .inl hzx
  · right
    rw [h.rest, ← List.filter_append]
    exact List.mem_filter.2 ⟨hz, by simpa using hzx⟩

theorem known (h : l.Dangling r rest x y j k l₁ l₂) (hz : z ∈ l₁ ++ l₂) :
    l.Known (withList rest j (x :: rest j)) z := by
  rcases h.mem_cases hz with rfl | hz
  · exact h.known_front
  · exact known_of_rest h.class_lt hz

theorem known_back (h : l.Dangling r rest x y j k l₁ l₂) :
    l.Known (withList rest j (x :: rest j)) (l₁.getLastD (l.sentinelAt k)) := by
  have hmem : l₁.getLastD (l.sentinelAt k) ∈ l.sentinelAt k :: l₁ := List.getLastD_mem_cons
  rcases List.mem_cons.1 hmem with heq | hmem
  · rw [heq]
    exact known_sentinel h.class_lt
  · exact h.known (List.mem_append_left _ hmem)

theorem known_next (h : l.Dangling r rest x y j k l₁ l₂) (hz : z ∈ l₂.head?) :
    l.Known (withList rest j (x :: rest j)) z :=
  h.known (List.mem_append_right _ (List.mem_of_mem_head? hz))

/-- The block in front is in no other place. -/
theorem not_mem_rest (h : l.Dangling r rest x y j k l₁ l₂) (hi : i < SizeClass.count) :
    x ∉ rest i := by
  intro hx
  have hfront : withList rest j (x :: rest j) j = x :: rest j := if_pos rfl
  by_cases hij : i = j
  · subst hij
    have hnd := h.lists.nodup i hi
    rw [hfront] at hnd
    exact (List.nodup_cons.1 (List.nodup_cons.1 hnd).2).1 hx
  · have hother : withList rest j (x :: rest j) i = rest i := if_neg hij
    refine h.lists.ne_of_class hi h.front (x := x) (y := x) ?_ ?_ hij rfl
    · rw [hother]
      exact List.mem_cons_of_mem _ hx
    · rw [hfront]
      exact List.mem_cons_of_mem _ List.mem_cons_self

theorem sentinel_ne (h : l.Dangling r rest x y j k l₁ l₂) (hi : i < SizeClass.count) :
    l.sentinelAt i ≠ x := by
  refine h.lists.sentinel_ne hi h.front ?_
  rw [withList, if_pos rfl]
  exact List.mem_cons_self

/-- The links of the block in front. -/
theorem front_links (h : l.Dangling r rest x y j k l₁ l₂) :
    l.links.linkAt r x = some (l.sentinelAt j) ∧ l.links.linkAt r (x + 4) = (rest j).head? := by
  have hstr := h.lists.strung j h.front
  rw [withList, if_pos rfl] at hstr
  have hrest : l.Strung r x (rest j) := hstr.2.2
  exact ⟨hstr.2.1, hrest.next⟩

/-- The block at `y` leaves again. -/
theorem leave (h : l.Dangling r rest x y j k l₁ l₂) :
    l.remove r y = .ok (l.unlink r (l₁.getLastD (l.sentinelAt k)) l₂.head?) :=
  remove_eq h.spot h.back (h.lists.spot h.known_back) h.next
    fun _ ha => h.lists.spot (h.known_next ha)

/-- Linking blocks that are known to each other changes links only. -/
theorem byte_unlink {b : Nat} {o : Option Nat} {lists : Nat → List Nat}
    (hb : l.Known lists b) (ho : ∀ a ∈ o, l.Known lists a) (hi : ¬l.Touches lists i) :
    (l.unlink s b o).byte i = s.byte i := by
  have hout : ∀ a, l.Known lists a → ¬(a ≤ i ∧ i < a + 8) := by
    rintro a ⟨k, hk, ha⟩ hai
    exact hi ⟨k, hk, a, ha, hai⟩
  refine FreeLists.byte_unlink ?_ fun a ha => ?_
  · have := hout b hb
    omega
  · have := hout a (ho a ha)
    omega

theorem listed_front (h : l.Dangling r rest x y j k l₁ l₂) :
    ∃ i < SizeClass.count, x ∈ withList rest j (x :: rest j) i := by
  refine ⟨j, h.front, ?_⟩
  rw [withList, if_pos rfl]
  exact List.mem_cons_self

/-- What both leave behind was in the list, or in the other one when the links lead there. -/
theorem mem_rejoined (h : l.Dangling r rest x y j k l₁ l₂) (hr : Rejoins x j k l₁ l₂)
    (hz : z ∈ rejoined rest x j l₁ l₂) : z ∈ rest j := by
  unfold rejoined at hz
  split at hz
  case isFalse => exact hz
  case isTrue hlast =>
    rcases hr.before hlast with rfl | rfl
    · have hzl : z ∈ l₁ ++ l₂ := List.mem_append_right _ hz
      have hxl : x ∈ l₁ := List.mem_of_getLast? hlast
      have hzx : z ≠ x := fun hzx => (List.nodup_append.1 h.nodup).2.2 x hxl z hz hzx.symm
      exact (h.mem_cases hzl).resolve_left hzx
    · cases hz

/-! ## Where the links are right again -/

/-- The first block of a list leaves it. -/
theorem remove_front (hj : j < SizeClass.count)
    (h : l.Represents s (withList rest j (x :: nodes))) :
    l.remove s x = .ok (l.unlink s (l.sentinelAt j) nodes.head?)
      ∧ l.Represents (l.unlink s (l.sentinelAt j) nodes.head?) (withList rest j nodes)
      ∧ ∀ i, ¬l.Touches (withList rest j (x :: nodes)) i →
        (l.unlink s (l.sentinelAt j) nodes.head?).byte i = s.byte i := by
  -- nothing comes before it
  have hself : withList rest j (x :: nodes) j = [] ++ ([x] ++ nodes) := if_pos rfl
  have hmem : ∀ z ∈ x :: nodes, l.Known (withList rest j (x :: nodes)) z :=
    fun z hz => known_of_mem hj (hself.symm ▸ hz)
  have hnext : ∀ z ∈ nodes.head?, l.Known (withList rest j (x :: nodes)) z :=
    fun z hz => hmem z (List.mem_cons_of_mem _ (List.mem_of_mem_head? hz))
  have hstr := h.strung j hj
  rw [hself] at hstr
  have hrest : l.Strung s x nodes := hstr.2.2
  have hcut := h.cut hj hself
  rw [withList_withList] at hcut
  exact ⟨remove_eq (h.spot (hmem x List.mem_cons_self)) hstr.2.1 (h.spot (known_sentinel hj))
    hrest.next fun z hz => h.spot (hnext z hz), hcut.1,
    fun i hi => byte_unlink (known_sentinel hj) hnext hi⟩

/-- A block that leaves a list in which its neighbours are beside each other changes nothing, and
neither does one whose neighbour on either side has gone since. -/
theorem rejoins_of_cut {mid a b : List Nat} {i : Nat} (h : l.Dangling r rest x y j k l₁ l₂)
    (hi : i < SizeClass.count)
    (hsplit : withList rest j (x :: rest j) i = a ++ (mid ++ b))
    (hback : a.getLastD (l.sentinelAt i) = l₁.getLastD (l.sentinelAt k))
    (hnext : b.head? = l₂.head?)
    (hcut : ∀ c < SizeClass.count, withList (withList rest j (x :: rest j)) i (a ++ b) c
      = withList rest j (x :: nodes) c) :
    ∃ s₁ s₂, l.BothLeave r s₁ s₂ y x (withList rest j (x :: nodes))
      ∧ l.Represents s₂ (withList rest j nodes) := by
  -- the first departure links the blocks on either side of `mid` to each other
  have hrep := (h.lists.cut hi hsplit).1
  rw [hback, hnext] at hrep
  have hbyte := (h.lists.cut hi hsplit).2
  rw [hback, hnext] at hbyte
  have hrep' := hrep.of_eq fun c hc => (hcut c hc).symm
  rcases remove_front h.front hrep' with ⟨hrun, hlast, hbyte'⟩
  refine ⟨_, _, ⟨h.leave, hrun, ⟨size_unlink _ _, by rw [size_unlink, size_unlink]⟩,
    fun c hc => ?_⟩, hlast⟩
  have hsame := hbyte c fun ht => hc (ht.of_eq fun c hc => (hcut c hc).symm)
  exact ⟨hsame, (hbyte' c hc).trans hsame⟩

/-- The block in front was the first of the same list that the other one left, so its own links are
what is written, and it leaves by them a second time. -/
theorem rejoins_front (h : l.Dangling r rest x y j j [] l₂) (hnext : l₂.head? ≠ some x) :
    ∃ s₁ s₂, l.BothLeave r s₁ s₂ y x (withList rest j (x :: rest j))
      ∧ l.Represents s₂ (withList rest j (rest j)) := by
  have hhead : (rest j).head? = l₂.head? := by
    rw [h.rest, List.filter_nil, List.nil_append, head?_filter hnext]
  have hknown : ∀ z ∈ (rest j).head?, l.Known (withList rest j (x :: rest j)) z :=
    fun z hz => known_of_rest h.front (List.mem_of_mem_head? hz)
  have hsent : l.Known (withList rest j (x :: rest j)) (l.sentinelAt j) := known_sentinel h.front
  have hxs := (h.sentinel_ne h.front).symm
  have hxo : x ∉ (rest j).head? := fun hx => h.not_mem_rest h.front (List.mem_of_mem_head? hx)
  have hleave := h.leave
  rw [List.getLastD_nil, ← hhead] at hleave
  rcases remove_front h.front h.lists with ⟨-, hrep, hbyte⟩
  -- its links are still there
  have hback := (h.lists.prev_unlink h.known_front hsent hknown hxo).trans h.front_links.1
  have hlink := (h.lists.next_unlink h.known_front hsent hknown hxs).trans h.front_links.2
  have hspot : ∀ z, l.Known (withList rest j (x :: rest j)) z →
      l.Spot (l.unlink r (l.sentinelAt j) (rest j).head?) z :=
    fun z hz => (h.lists.spot hz).of_size (Nat.le_of_eq (size_unlink _ _).symm)
  have hself : withList rest j (rest j) j = [] ++ ([] ++ rest j) := if_pos rfl
  have hcut := (hrep.cut h.front hself).1
  rw [withList_withList, List.getLastD_nil] at hcut
  refine ⟨_, _, ⟨hleave, remove_eq (hspot x h.known_front) hback (hspot _ hsent) hlink
    fun z hz => hspot z (hknown z hz), ⟨size_unlink _ _, by rw [size_unlink, size_unlink]⟩,
    fun c hc => ?_⟩, hcut⟩
  have hsame := hbyte c hc
  exact ⟨hsame, (byte_unlink hsent hknown hc).trans hsame⟩

/-- The block in front was the last one before the block that leaves twice. -/
theorem rest_eq_of_last {init : List Nat} (h : l.Dangling r rest x y j k (init ++ [x]) l₂) :
    rest k = init ++ l₂ := by
  have hx : ∀ z ∈ init ++ l₂, z ≠ x := by
    intro z hz hzx
    have hnd := h.nodup
    rw [List.append_assoc, List.singleton_append] at hnd
    exact (List.nodup_cons.1 (List.perm_middle.nodup_iff.1 hnd)).1 (hzx ▸ hz)
  rw [h.rest, List.filter_append, List.filter_cons_of_neg (by simp), List.filter_nil,
    List.append_nil, ← List.filter_append]
  exact List.filter_eq_self.2 fun z hz => by simpa using hx z hz

/-- The block that leaves links the one in front to what came after it. -/
theorem rejoins_last {init : List Nat} (h : l.Dangling r rest x y j k (init ++ [x]) l₂)
    (hr : j = k ∨ l₂ = []) :
    ∃ s₁ s₂, l.BothLeave r s₁ s₂ y x (withList rest j (x :: l₂))
      ∧ l.Represents s₂ (withList rest j l₂) := by
  have hself : withList rest j (x :: rest j) j = x :: rest j := if_pos rfl
  have hlast : ([x] : List Nat).getLastD (l.sentinelAt j)
      = (init ++ [x]).getLastD (l.sentinelAt k) := by
    rw [List.getLastD_concat]
    rfl
  rcases hr with rfl | rfl
  · -- the blocks that were before the one in front are cut off
    have hsplit : withList rest j (x :: rest j) j = [x] ++ (init ++ l₂) := by
      rw [hself, h.rest_eq_of_last]
      rfl
    exact h.rejoins_of_cut h.front hsplit hlast rfl fun c _ => congrFun withList_withList c
  · -- all blocks after the one in front are cut off
    have hsplit : withList rest j (x :: rest j) j = [x] ++ (rest j ++ []) := by
      rw [hself, List.append_nil]
      rfl
    exact h.rejoins_of_cut h.front hsplit hlast rfl fun c _ => congrFun withList_withList c

/-- The block that leaves was in another list, which lost no neighbour of it, so nothing is cut. -/
theorem rejoins_other (h : l.Dangling r rest x y j k l₁ l₂) (hjk : k ≠ j)
    (hlast : l₁.getLast? ≠ some x) (hnext : l₂.head? ≠ some x) :
    ∃ s₁ s₂, l.BothLeave r s₁ s₂ y x (withList rest j (x :: rest j))
      ∧ l.Represents s₂ (withList rest j (rest j)) := by
  have hother : withList rest j (x :: rest j) k
      = l₁.filter (· ≠ x) ++ ([] ++ l₂.filter (· ≠ x)) := by
    rw [withList, if_neg hjk, h.rest]
    rfl
  refine h.rejoins_of_cut h.class_lt hother (getLastD_filter hlast) (head?_filter hnext)
    fun c _ => ?_
  rw [← h.rest]
  unfold withList
  split
  case isTrue hck => rw [hck, if_neg hjk]
  case isFalse => rfl

/-- The block that leaves was further back in the same list, where nothing is cut either. -/
theorem rejoins_same {init : List Nat} (h : l.Dangling r rest x y j j (init ++ [z]) l₂) (hz : z ≠ x)
    (hnext : l₂.head? ≠ some x) :
    ∃ s₁ s₂, l.BothLeave r s₁ s₂ y x (withList rest j (x :: rest j))
      ∧ l.Represents s₂ (withList rest j (rest j)) := by
  have hself : withList rest j (x :: rest j) j = x :: rest j := if_pos rfl
  have hsplit : withList rest j (x :: rest j) j
      = (x :: init.filter (· ≠ x) ++ [z]) ++ ([] ++ l₂.filter (· ≠ x)) := by
    rw [hself, h.rest, List.filter_append, List.filter_cons_of_pos (by simpa using hz),
      List.filter_nil]
    rfl
  have hall : (x :: init.filter (· ≠ x) ++ [z]) ++ l₂.filter (· ≠ x) = x :: rest j := by
    rw [← hself, hsplit]
    rfl
  refine h.rejoins_of_cut h.front hsplit (by rw [List.getLastD_concat, List.getLastD_concat])
    (head?_filter hnext) fun c _ => ?_
  rw [hall]
  exact congrFun withList_withList c

/-- Two blocks that leave rightly leave the lists right. -/
theorem rejoins (h : l.Dangling r rest x y j k l₁ l₂) (hr : Rejoins x j k l₁ l₂) :
    ∃ s₁ s₂, l.BothLeave r s₁ s₂ y x (withList rest j (x :: rejoined rest x j l₁ l₂))
      ∧ l.Represents s₂ (withList rest j (rejoined rest x j l₁ l₂)) := by
  by_cases hlast : l₁.getLast? = some x
  · rw [rejoined, if_pos hlast]
    rcases List.getLast?_eq_some_iff.1 hlast with ⟨init, rfl⟩
    exact h.rejoins_last (hr.before hlast)
  rw [rejoined, if_neg hlast]
  by_cases hnext : l₂.head? = some x
  · -- it is the first of its list, as the block that leaves was
    rcases hr.after hnext with ⟨rfl, rfl⟩
    have hsplit : withList rest j (x :: rest j) j = [] ++ ([] ++ (x :: rest j)) := if_pos rfl
    exact h.rejoins_of_cut h.front hsplit rfl hnext.symm fun c _ => congrFun withList_withList c
  by_cases hjk : k = j
  case neg => exact h.rejoins_other hjk hlast hnext
  subst hjk
  rcases List.eq_nil_or_concat l₁ with rfl | ⟨init, z, heq⟩
  · exact h.rejoins_front hnext
  · rw [List.concat_eq_append] at heq
    subst heq
    refine h.rejoins_same (fun hz => ?_) hnext
    exact hlast (hz ▸ List.getLast?_concat)

/-! ## Where a sentinel is led astray -/

theorem sentinel_ne_of_mem (h : l.Dangling r rest x y j k l₁ l₂) (hi : i < SizeClass.count)
    (hz : z ∈ l₁ ++ l₂) : l.sentinelAt i ≠ z := by
  rcases h.mem_cases hz with rfl | hz
  · exact h.sentinel_ne hi
  · exact h.lists.sentinel_ne hi h.class_lt (mem_withList hz)

theorem front_ne_back (h : l.Dangling r rest x y j k l₁ l₂) (hx : x ∉ l₁) :
    x ≠ l₁.getLastD (l.sentinelAt k) := by
  have hback : l₁.getLastD (l.sentinelAt k) ∈ l.sentinelAt k :: l₁ := List.getLastD_mem_cons
  intro heq
  rw [← heq] at hback
  rcases List.mem_cons.1 hback with hxs | hxl
  · exact h.sentinel_ne h.class_lt hxs.symm
  · exact hx hxl

theorem sentinel_ne_back (h : l.Dangling r rest x y j k l₁ l₂) (hr : ¬(j = k ∧ l₁ = [])) :
    l.sentinelAt j ≠ l₁.getLastD (l.sentinelAt k) := by
  cases l₁ with
  | nil =>
      intro heq
      have hjk : j = k := Classical.byContradiction fun hjk =>
        h.lists.ne_of_class h.front h.class_lt List.mem_cons_self List.mem_cons_self hjk heq
      exact hr ⟨hjk, rfl⟩
  | cons c l₁ =>
      rw [List.getLastD_cons]
      exact h.sentinel_ne_of_mem h.front (List.mem_append_left _ List.getLastD_mem_cons)

/-- The block in front links back to what was before the one that leaves twice, so its sentinel
still leads to it when both have left. -/
theorem strays_back (h : l.Dangling r rest x y j k l₁ l₂) (hnext : l₂.head? = some x)
    (hr : ¬(j = k ∧ l₁ = [])) :
    ∃ s₁ s₂, l.BothLeave r s₁ s₂ y x (withList rest j (x :: rest j))
      ∧ l.links.linkAt s₂ (l.sentinelAt j + 4) = some x
      ∧ l.Leads s₂ (withList rest j (x :: rest j)) := by
  have hsent : l.Known (withList rest j (x :: rest j)) (l.sentinelAt j) := known_sentinel h.front
  have hback := h.known_back
  have hxl : x ∈ l₂ := List.mem_of_mem_head? hnext
  have hx₁ : x ∉ l₁ := fun hx => (List.nodup_append.1 h.nodup).2.2 x hx x hxl rfl
  have hne := h.front_ne_back hx₁
  -- its sentinel is not written at all, neither the first time nor the second
  have hstays := h.sentinel_ne_back hr
  have hlisted : ∀ a ∈ some x, ∃ i < SizeClass.count, a ∈ withList rest j (x :: rest j) i := by
    rintro a ⟨⟩
    exact h.listed_front
  have hknown : ∀ a ∈ some x, l.Known (withList rest j (x :: rest j)) a := by
    rintro a ⟨⟩
    exact h.known_front
  have hlistedHead : ∀ a ∈ (rest j).head?, ∃ i < SizeClass.count,
      a ∈ withList rest j (x :: rest j) i :=
    fun a ha => ⟨j, h.front, mem_withList (List.mem_of_mem_head? ha)⟩
  have hhead : ∀ a ∈ (rest j).head?, l.Known (withList rest j (x :: rest j)) a :=
    fun a ha => known_of_rest h.front (List.mem_of_mem_head? ha)
  have hspot : ∀ z, l.Known (withList rest j (x :: rest j)) z → ∀ b o, l.Spot (l.unlink r b o) z :=
    fun z hz b o => (h.lists.spot hz).of_size (Nat.le_of_eq (size_unlink _ _).symm)
  have hleave := h.leave
  rw [hnext] at hleave
  have hapart := h.lists.eq_or_apart h.known_front hback
  -- the first departure writes its link back, and leaves its link onwards
  have hback' := linkAt_unlink_prev (l := l) (o := some x) rfl (h.lists.spot hback)
    (h.lists.spot h.known_front) (by omega)
  have hlink := (h.lists.next_unlink h.known_front hback hknown hne).trans h.front_links.2
  have hstr := h.lists.strung j h.front
  rw [withList, if_pos rfl] at hstr
  refine ⟨_, _, ⟨hleave, remove_eq (hspot x h.known_front _ _) hback' (hspot _ hback _ _) hlink
    fun a ha => hspot a (hhead a ha) _ _, ⟨size_unlink _ _, by rw [size_unlink, size_unlink]⟩,
    fun c hc => ?_⟩, ?_,
    (h.lists.leads.unlink h.lists rfl hback hlisted).unlink h.lists (size_unlink _ _) hback
      hlistedHead⟩
  · have hsame := byte_unlink (s := r) hback hknown hc
    exact ⟨hsame, (byte_unlink hback hhead hc).trans hsame⟩
  · rw [h.lists.next_unlink hsent hback hhead hstays, h.lists.next_unlink hsent hback hknown hstays]
    exact hstr.1

/-- The block in front links on to what came after the one that leaves twice, so its sentinel comes
to lead there. -/
theorem strays_next {init : List Nat} (h : l.Dangling r rest x y j k (init ++ [x]) (z :: l₂)) :
    ∃ s₁ s₂, l.BothLeave r s₁ s₂ y x (withList rest j (x :: rest j))
      ∧ l.links.linkAt s₂ (l.sentinelAt j + 4) = some z ∧ z ∈ rest k
      ∧ l.Leads s₂ (withList rest j (x :: rest j)) := by
  have hsent : l.Known (withList rest j (x :: rest j)) (l.sentinelAt j) := known_sentinel h.front
  have hzl : z ∈ init ++ [x] ++ z :: l₂ := List.mem_append_right _ List.mem_cons_self
  have hxl : x ∈ init ++ [x] := List.mem_append_right _ List.mem_cons_self
  have hzx : x ≠ z := fun hxz => (List.nodup_append.1 h.nodup).2.2 x hxl z List.mem_cons_self hxz
  have hz : z ∈ rest k := (h.mem_cases hzl).resolve_left hzx.symm
  have hlisted : ∀ a ∈ some z, ∃ i < SizeClass.count, a ∈ withList rest j (x :: rest j) i := by
    rintro a ⟨⟩
    exact ⟨k, h.class_lt, mem_withList hz⟩
  have hknown : ∀ a ∈ some z, l.Known (withList rest j (x :: rest j)) a := by
    rintro a ⟨⟩
    exact h.known hzl
  have hspots : ∀ a ∈ some z, l.Spot r a := fun a ha => h.lists.spot (hknown a ha)
  have hspot : ∀ a, l.Known (withList rest j (x :: rest j)) a → ∀ b o, l.Spot (l.unlink r b o) a :=
    fun a ha b o => (h.lists.spot ha).of_size (Nat.le_of_eq (size_unlink _ _).symm)
  have hleave := h.leave
  rw [List.getLastD_concat, List.head?_cons] at hleave
  -- the first departure writes its link onwards, and leaves its link back
  have hback := (h.lists.prev_unlink h.known_front h.known_front hknown
    (fun hx => hzx (Option.some.inj hx).symm)).trans h.front_links.1
  have hlink : l.links.linkAt (l.unlink r x (some z)) (x + 4) = some z :=
    linkAt_unlink_next (h.lists.spot h.known_front) hspots
  refine ⟨_, _, ⟨hleave, remove_eq (hspot x h.known_front _ _) hback (hspot _ hsent _ _) hlink
    fun a ha => hspot a (hknown a ha) _ _, ⟨size_unlink _ _, by rw [size_unlink, size_unlink]⟩,
    fun c hc => ?_⟩,
    linkAt_unlink_next (hspot _ hsent _ _) fun a ha => hspot a (hknown a ha) _ _, hz,
    (h.lists.leads.unlink h.lists rfl h.known_front hlisted).unlink h.lists (size_unlink _ _) hsent
      hlisted⟩
  have hsame := byte_unlink (s := r) h.known_front hknown hc
  exact ⟨hsame, (byte_unlink hsent hknown hc).trans hsame⟩

/-- If the blocks do not leave rightly, the sentinel of the block in front still leads to it, or to
a block from another list. -/
theorem strays (h : l.Dangling r rest x y j k l₁ l₂) (hr : ¬Rejoins x j k l₁ l₂) :
    ∃ s₁ s₂ z, l.BothLeave r s₁ s₂ y x (withList rest j (x :: rest j))
      ∧ l.links.linkAt s₂ (l.sentinelAt j + 4) = some z
      ∧ (z = x ∨ (j ≠ k ∧ z ∈ rest k)) ∧ l.Leads s₂ (withList rest j (x :: rest j)) := by
  by_cases hback : l₂.head? = some x ∧ ¬(j = k ∧ l₁ = [])
  · rcases h.strays_back hback.1 hback.2 with ⟨s₁, s₂, hleave, hlink, hleads⟩
    exact ⟨s₁, s₂, x, hleave, hlink, .inl rfl, hleads⟩
  · -- what is left is that it was before the block, in another list
    have hnext : l₁.getLast? = some x ∧ j ≠ k ∧ l₂ ≠ [] := by
      refine Classical.byContradiction fun hnext => hr ⟨fun hx => ?_, fun hx => ?_⟩
      · exact Classical.byContradiction fun hc => hback ⟨hx, hc⟩
      · refine Classical.byContradiction fun hc => hnext ⟨hx, ?_, ?_⟩
        · exact fun hjk => hc (.inl hjk)
        · exact fun hnil => hc (.inr hnil)
    rcases hnext with ⟨hlast, hjk, hnil⟩
    rcases List.getLast?_eq_some_iff.1 hlast with ⟨init, rfl⟩
    cases l₂ with
    | nil => exact absurd rfl hnil
    | cons z l₂ =>
        rcases h.strays_next with ⟨s₁, s₂, hleave, hlink, hz, hleads⟩
        exact ⟨s₁, s₂, z, hleave, hlink, .inr ⟨hjk, hz⟩, hleads⟩

/-! ## Both together -/

theorem departs (h : l.Dangling r rest x y j k l₁ l₂) :
    ∃ s₁ s₂, l.remove r y = .ok s₁ ∧ l.remove s₁ x = .ok s₂ ∧ s₁.size = r.size
      ∧ (∀ i, ¬l.Touches (withList rest j (x :: rest j)) i → s₁.byte i = r.byte i)
      ∧ l.Departed r s₂ rest x j k l₁ l₂ := by
  by_cases hr : Rejoins x j k l₁ l₂
  case neg =>
    rcases h.strays hr with ⟨s₁, s₂, z, ⟨hs₁, hs₂, hsize, hbyte⟩, hlink, hz, hleads⟩
    exact ⟨s₁, s₂, hs₁, hs₂, hsize.1, fun i hi => (hbyte i hi).1, hsize.2,
      fun i hi => (hbyte i hi).2, hleads, fun hc => absurd hc hr, fun _ => ⟨z, hlink, hz⟩⟩
  rcases h.rejoins hr with ⟨s₁, s₂, ⟨hs₁, hs₂, hsize, hbyte⟩, hrep⟩
  have hnodes : x :: rejoined rest x j l₁ l₂ ⊆ x :: rest j :=
    List.cons_subset_cons x fun _ hz => h.mem_rejoined hr hz
  have htouch : ∀ i, ¬l.Touches (withList rest j (x :: rest j)) i →
      ¬l.Touches (withList rest j (x :: rejoined rest x j l₁ l₂)) i := by
    rintro i hi ⟨c, hc, a, ha, hai⟩
    refine hi ⟨c, hc, a, ?_, hai⟩
    exact List.cons_subset_cons _ (withList_subset hnodes) ha
  refine ⟨s₁, s₂, hs₁, hs₂, hsize.1, fun i hi => (hbyte i (htouch i hi)).1, hsize.2,
    fun i hi => (hbyte i (htouch i hi)).2, fun c hc a ha => ?_,
    fun _ => ⟨hrep, fun i hi => (hbyte i hi).2⟩, fun hc => absurd hr hc⟩
  rcases hrep.leads c hc a ha with ⟨i, hi, hai⟩
  exact ⟨i, hi, withList_subset (List.subset_of_cons_subset hnodes) hai⟩

/-- If no block leaves twice, the one in front leaves rightly. -/
theorem departs_front (hj : j < SizeClass.count)
    (h : l.Represents r (withList rest j (x :: rest j))) :
    ∃ s, l.remove r x = .ok s ∧ l.Departed r s rest x j k [] [] := by
  rcases remove_front hj h with ⟨hrun, hrep, hbyte⟩
  have hnone : rejoined rest x j [] [] = rest j := if_neg nofun
  refine ⟨_, hrun, size_unlink _ _, hbyte, fun c hc a ha => ?_, fun _ => ?_, fun hr => ?_⟩
  · rcases hrep.leads c hc a ha with ⟨i, hi, hai⟩
    exact ⟨i, hi, withList_subset (List.subset_cons_self _ _) hai⟩
  · rw [hnone]
    exact ⟨hrep, hbyte⟩
  · exact absurd ⟨nofun, nofun⟩ hr

end Dangling

end FreeLists

end BoundaryTag
