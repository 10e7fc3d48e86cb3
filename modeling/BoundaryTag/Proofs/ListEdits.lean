import BoundaryTag.Proofs.ListSequences

/-!
# ListEdits — lists that are edited as sequences

The lists inside the free blocks keep up with sequences of addresses, whichever block joins or
leaves. No list is gone through for that. An edit sets four words at most, and no other byte of the
region changes.

* `Region.Rewritten` says that two regions differ in some words only.
* A listing shows the sequences (`Represents.blocks_eq`), which are empty after the sentinels were
  cleared (`represents_clear`).
* `Represents.edited_in_place`: a block that joins comes to the front of the sequence of its class,
  one that leaves is taken out of its sequence, and which words are set.
* `Represents.run`: any edits by the rules come through, and the lists are those of the sequences
  afterwards.
-/

namespace BoundaryTag

namespace Region

/-- Nothing has changed outside of the words at some addresses. -/
structure Rewritten (words : List Nat) (before after : Region) : Prop where
  size : after.size = before.size
  kept : ∀ i, (∀ a ∈ words, i < a ∨ a + 4 ≤ i) → after.byte i = before.byte i

end Region

namespace FreeLists

open Links Region

variable {l : FreeLists} {r s : Region} {lists : Nat → List Nat} {nodes before after : List Nat}
  {k n bp prev : Nat} {cursor : Option Nat}

/-! ## Which words are set -/

theorem unlink_rewritten (l : FreeLists) (r : Region) (b : Nat) (o : Option Nat) :
    Rewritten ((b + 4) :: o.toList) r (l.unlink r b o) := by
  refine ⟨size_unlink b o, fun i hi => byte_unlink (hi _ List.mem_cons_self) fun a ha => ?_⟩
  exact hi a (List.mem_cons_of_mem _ (Option.mem_toList.2 ha))

theorem pushFront_rewritten (l : FreeLists) (r : Region) (bp head : Nat) (o : Option Nat) :
    Rewritten (bp :: (bp + 4) :: (head + 4) :: o.toList) r (l.pushFront r bp head o) := by
  refine ⟨size_pushFront bp head o, fun i hi => ?_⟩
  have hprev := hi bp (by simp)
  have hnext := hi (bp + 4) (by simp)
  refine byte_pushFront (by omega) (hi (head + 4) (by simp)) fun a ha => hi a ?_
  simp [Option.mem_def.1 ha]

/-! ## Reading the sequences -/

theorem blocksFrom_eq (h : l.Threads r prev cursor nodes) (hbase : l.base < 0x8000000000000000)
    (hroom : ∀ a ∈ nodes, a + 8 ≤ r.size) (limit : Nat) :
    l.blocksFrom r limit cursor = .ok (nodes.take limit) := by
  induction nodes generalizing prev cursor limit with
  | nil =>
      cases h
      cases limit <;> rfl
  | cons a nodes ih =>
      rcases h with ⟨rfl, -, hrest⟩
      cases limit with
      | zero => rfl
      | succ limit =>
          have htail := ih hrest (fun b hb => hroom b (List.mem_cons_of_mem a hb)) limit
          rw [blocksFrom, Links.next_eq hbase (hroom a List.mem_cons_self), Fault.ok_bind, htail,
            Fault.ok_bind, Fault.pure_eq_ok, List.take_succ_cons]

/-- A listing of a class shows its sequence. -/
theorem Represents.blocks_eq (h : l.Represents r lists) (hk : k < SizeClass.count) (limit : Nat) :
    l.blocks r limit k = .ok ((lists k).take limit) := by
  have hhead := h.room k hk _ List.mem_cons_self
  have hroom : ∀ a ∈ lists k, a + 8 ≤ r.size :=
    fun a ha => (h.room k hk a (List.mem_cons_of_mem _ ha)).2.2
  rw [blocks, first, sentinel_eq hk hhead, Fault.ok_bind, Links.next_eq hhead.base_lt hhead.2.2,
    Fault.ok_bind]
  exact blocksFrom_eq (h.strung k hk) hhead.base_lt hroom limit

/-- Cleared sentinels lead nowhere. -/
theorem represents_clear (hroom : ∀ k < SizeClass.count, l.Spot r (l.sentinelAt k)) :
    ∃ s, l.clear r = .ok s ∧ s.size = r.size ∧ l.Represents s fun _ => [] := by
  -- all sentinels are inside because the last one is
  have hfits : l.root + SizeClass.count * sentinelSize ≤ r.size := by
    have := (hroom 13 (by decide)).2.2
    simp only [sentinelAt, SizeClass.count, sentinelSize] at this ⊢
    omega
  refine ⟨r.fill l.root 0 (SizeClass.count * sentinelSize), ?_, size_fill .., ?_⟩
  · rw [clear, Fault.require_eq _ hfits, Fault.ok_bind, Fault.pure_eq_ok]
  refine ⟨fun k hk => ?_, fun k _ => List.nodup_cons.2 ⟨List.not_mem_nil, List.nodup_nil⟩,
    fun j hj k hk x hx y hy => ?_, fun k hk x hx => ?_⟩
  · have hword : (r.fill l.root 0 (SizeClass.count * sentinelSize)).word (l.sentinelAt k + 4)
        = 0 := by
      simp only [sentinelAt, SizeClass.count, sentinelSize] at hk hfits ⊢
      refine word_eq_zero fun i hi hi' => ?_
      rw [byte_fill, if_pos (by omega)]
    rw [strung_nil, linkAt, if_pos hword]
  · cases List.mem_singleton.1 hx
    cases List.mem_singleton.1 hy
    simp only [sentinelAt, sentinelSize]
    omega
  · cases List.mem_singleton.1 hx
    exact (hroom k hk).of_size (Nat.le_of_eq (size_fill ..).symm)

/-! ## One edit -/

theorem Represents.erase_eq (h : l.Represents r lists) (hk : k < SizeClass.count) (bp : Nat) :
    (lists k).erase bp = Plan.drop lists bp (bp + 1) k := by
  -- a sequence has no block twice, so nothing that is equal to `bp` is left
  rw [(List.nodup_cons.1 (h.nodup k hk)).2.erase_eq_filter, Plan.drop]
  refine List.filter_congr fun y _ => ?_
  rw [Bool.eq_iff_iff, bne_iff_ne, decide_eq_true_iff]
  omega

/-- A block joins a sequence in front. -/
theorem Represents.inserted (h : l.Represents r lists) (hbp : l.Spot r bp)
    (hfresh : l.Fresh lists bp) (n : Nat) :
    ∃ s, l.insert r bp n = .ok s ∧ l.Represents s (Plan.push lists bp n)
      ∧ Rewritten (bp :: (bp + 4) :: (l.sentinelAt (SizeClass.of n) + 4)
        :: (lists (SizeClass.of n)).head?.toList) r s := by
  rcases h.insert (n := n) hbp hfresh with ⟨s, hs, -, hrep, -⟩
  -- the region is known link by link, which tells the words that can differ
  have hfront := Except.ok.inj (hs.symm.trans (h.insert_front hbp))
  exact ⟨s, hs, hrep, hfront ▸ pushFront_rewritten ..⟩

/-- A block leaves the sequence in which it is. -/
theorem Represents.removed (h : l.Represents r lists) (hk : k < SizeClass.count)
    (hsplit : lists k = before ++ bp :: after) :
    ∃ s, l.remove r bp = .ok s ∧ (l.Represents s fun j => (lists j).erase bp)
      ∧ Rewritten ((before.getLastD (l.sentinelAt k) + 4) :: after.head?.toList) r s := by
  have hbp : bp ∈ lists k := hsplit ▸ List.mem_append_right _ List.mem_cons_self
  rcases h.remove hk hbp with ⟨s, hs, -, hrep, -⟩
  have hbetween := Except.ok.inj (hs.symm.trans (h.remove_between hk hsplit))
  exact ⟨s, hs, hrep.of_eq fun j hj => h.erase_eq hj bp, hbetween ▸ unlink_rewritten ..⟩

/-! ## Many edits -/

inductive Edit where
  /-- The block at `bp` joins the list for `size`. -/
  | insert (bp size : Nat)
  /-- The block at `bp` leaves its list. -/
  | remove (bp : Nat)

namespace Edit

def perform (l : FreeLists) (r : Region) : Edit → Except Fault Region
  | .insert bp size => l.insert r bp size
  | .remove bp => l.remove r bp

def follow (lists : Nat → List Nat) : Edit → Nat → List Nat
  | .insert bp size => Plan.push lists bp size
  | .remove bp => fun index => (lists index).erase bp

/-- A block that joins has room for links that no other block uses, and a block that leaves is in a
list. -/
def Allowed (l : FreeLists) (r : Region) (lists : Nat → List Nat) : Edit → Prop
  | .insert bp _ => l.Spot r bp ∧ l.Fresh lists bp
  | .remove bp => ∃ index < SizeClass.count, bp ∈ lists index

/-- Each of the edits is allowed when it is its turn. -/
def AllAllowed (l : FreeLists) (r : Region) : (Nat → List Nat) → List Edit → Prop
  | _, [] => True
  | lists, e :: edits => e.Allowed l r lists ∧ AllAllowed l r (e.follow lists) edits

/-- The rules know a region by its size only. -/
theorem Allowed.of_size {e : Edit} (h : e.Allowed l r lists) (hsize : r.size ≤ s.size) :
    e.Allowed l s lists := by
  cases e with
  | insert bp n => exact ⟨h.1.of_size hsize, h.2⟩
  | remove bp => exact h

end Edit

variable {e : Edit} {edits : List Edit}

theorem Represents.edit (h : l.Represents r lists) (he : e.Allowed l r lists) :
    ∃ s, e.perform l r = .ok s ∧ s.size = r.size ∧ l.Represents s (e.follow lists) := by
  cases e with
  | insert bp n =>
      rcases h.inserted he.1 he.2 n with ⟨s, hs, hrep, hwords⟩
      exact ⟨s, hs, hwords.size, hrep⟩
  | remove bp =>
      rcases he with ⟨k, hk, hbp⟩
      rcases List.append_of_mem hbp with ⟨before, after, hsplit⟩
      rcases h.removed hk hsplit with ⟨s, hs, hrep, hwords⟩
      exact ⟨s, hs, hwords.size, hrep⟩

/-- Edits by the rules come through, and do to the links what they do to the sequences. The rules
are those for a region of the same size, since no edit changes the size. -/
theorem Represents.run (h : l.Represents s lists) (hsize : s.size = r.size)
    (hall : Edit.AllAllowed l r lists edits) :
    ∃ t, edits.foldlM (Edit.perform l) s = .ok t ∧ t.size = r.size
      ∧ l.Represents t (edits.foldl Edit.follow lists) := by
  -- one edit after the other, each on the region and the sequences that the last one left
  induction edits generalizing s lists with
  | nil => exact ⟨s, rfl, hsize, h⟩
  | cons e edits ih =>
      rcases hall with ⟨he, hrest⟩
      rcases h.edit (he.of_size (Nat.le_of_eq hsize.symm)) with ⟨s₁, hs₁, hsize₁, h₁⟩
      rcases ih h₁ (hsize₁.trans hsize) hrest with ⟨t, ht, hsizet, hrep⟩
      refine ⟨t, ?_, hsizet, hrep⟩
      rw [List.foldlM_cons, hs₁, Fault.ok_bind, ht]

/-! ## In place -/

/-- The lists are edited in place, as sequences are.  A block with room for two links, apart from
those of all others, comes to the front of the sequence of its class. Its own links are set, the
link back of the block that was first, and the link onwards of the sentinel.  Any block of any
sequence is taken out, and all others keep their order. The link back of the block after it is set,
and the link onwards of the block or sentinel before it. -/
theorem Represents.edited_in_place (h : l.Represents r lists) :
    (∀ bp n, l.Spot r bp → l.Fresh lists bp →
        ∃ s, l.insert r bp n = .ok s ∧ l.Represents s (Plan.push lists bp n)
          ∧ Rewritten (bp :: (bp + 4) :: (l.sentinelAt (SizeClass.of n) + 4)
            :: (lists (SizeClass.of n)).head?.toList) r s)
      ∧ ∀ k < SizeClass.count, ∀ before bp after, lists k = before ++ bp :: after →
        ∃ s, l.remove r bp = .ok s ∧ (l.Represents s fun j => (lists j).erase bp)
          ∧ Rewritten ((before.getLastD (l.sentinelAt k) + 4) :: after.head?.toList) r s := by
  constructor
  · intro bp n hbp hfresh
    exact h.inserted hbp hfresh n
  · intro k hk before bp after hsplit
    exact h.removed hk hsplit

/-- Three blocks of the class whose sentinel is at 32 stand in a region. A fourth one joins them, or
the one in the middle leaves. -/
theorem edited_in_place_amid_three :
    let l : FreeLists := ⟨8, 0⟩
    let three : Nat → List Nat := fun k => if k = 3 then [512, 384, 256] else []
    let edits : List Edit := [.insert 256 64, .insert 384 64, .insert 512 64]
    ∃ h : Region.empty.size + 640 < Region.bound, ∃ r,
      (do
          let r ← l.clear (Region.empty.extend 640 h)
          edits.foldlM (Edit.perform l) r) = .ok r
      ∧ l.Represents r three ∧ l.Spot r 128 ∧ l.Fresh three 128
      ∧ (∃ s, l.insert r 128 100 = .ok s ∧ l.blocks s 9 3 = .ok [128, 512, 384, 256]
        ∧ Rewritten [128, 132, 36, 512] r s)
      ∧ three 3 = [512] ++ 384 :: [256]
      ∧ ∃ s, l.remove r 384 = .ok s ∧ l.blocks s 9 3 = .ok [512, 256]
        ∧ Rewritten [516, 256] r s := by
  intro l three edits
  have hbound : Region.empty.size + 640 < Region.bound := by decide
  have hempty : (Region.empty.extend 640 hbound).size = 640 := Region.size_extend ..
  have hroom : ∀ k < SizeClass.count, l.Spot (Region.empty.extend 640 hbound) (l.sentinelAt k) := by
    unfold Spot
    rw [hempty]
    decide
  -- the sequences follow from the edits, without a look at the bytes
  rcases represents_clear hroom with ⟨r₀, hclear, hsize₀, h₀⟩
  have hall : Edit.AllAllowed l r₀ (fun _ => []) edits := by
    simp only [Edit.AllAllowed, Edit.Allowed, Spot, hsize₀, hempty, Fresh, edits]
    decide
  rcases h₀.run rfl hall with ⟨r, hedits, hsize, h⟩
  have hthree : l.Represents r three := h.of_eq (by decide)
  have hspot : l.Spot r 128 := by
    unfold Spot
    rw [hsize, hsize₀, hempty]
    decide
  have hfresh : l.Fresh three 128 := by
    unfold Fresh
    decide
  have hsplit : three 3 = [512] ++ 384 :: [256] := rfl
  rcases hthree.edited_in_place with ⟨hinsert, hremove⟩
  rcases hinsert 128 100 hspot hfresh with ⟨s, hs, hjoined, hwords⟩
  rcases hremove 3 (by decide) [512] 384 [256] hsplit with ⟨t, ht, hleft, hwords'⟩
  refine ⟨hbound, r, ?_, hthree, hspot, hfresh, ⟨s, hs, ?_, hwords⟩, hsplit, t, ht, ?_, hwords'⟩
  · rw [hclear, Fault.ok_bind, hedits]
  · exact hjoined.blocks_eq (by decide) 9
  · exact hleft.blocks_eq (by decide) 9

end FreeLists

end BoundaryTag
