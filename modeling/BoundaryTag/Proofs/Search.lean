import BoundaryTag.Proofs.IntermediateRegion
import BoundaryTag.Proofs.PlanResults
import Mathlib.Data.List.Find

/-!
# Search — which blocks a search looks at

The search for a free block that fits, and the blocks that it looks at on the way.

* `FreeLists.search` is `firstFit` which also says where it has been (`map_search`).
* `Holds.search_spec`: on a region that holds a plan the search looks through the lists in order,
  without coming to an end of its bound.
* `Holds.firstFit_planned`: it finds the block that the plan says.
* `Holds.firstFit_spec`: nothing before it is large enough, and `Holds.firstFit_eq_none_iff`: it
  finds one if there is any that is.
-/

namespace BoundaryTag

open Extent

namespace FreeLists

/-! ## Searching with a record -/

def searchFrom (l : FreeLists) (r : Region) (need : Nat) :
    Nat → Option Nat → Except Fault (List Nat × Option Nat)
  | _, none => return ([], none)
  | 0, some _ => .error .endless
  | fuel + 1, some bp => do
    if need ≤ (← r.header bp).size then
      return ([bp], some bp)
    else
      let (seen, answer) ← searchFrom l r need fuel (← l.links.next r bp)
      return (bp :: seen, answer)

def searchInClass (l : FreeLists) (r : Region) (need index : Nat) :
    Except Fault (List Nat × Option Nat) := do
  l.searchFrom r need (r.size + 1) (← l.first r index)

def searchInClasses (l : FreeLists) (r : Region) (need : Nat) :
    List Nat → Except Fault (List Nat × Option Nat)
  | [] => return ([], none)
  | index :: rest => do
    match ← l.searchInClass r need index with
    | (seen, some bp) => return (seen, some bp)
    | (seen, none) => do
      let (more, answer) ← searchInClasses l r need rest
      return (seen ++ more, answer)

/-- `firstFit`, and the blocks that it looks at, in the order in which it does. -/
def search (l : FreeLists) (r : Region) (need : Nat) : Except Fault (List Nat × Option Nat) :=
  l.searchInClasses r need ((List.range SizeClass.count).drop (SizeClass.of need))

variable {l : FreeLists} {r : Region} {need fuel prev : Nat} {cursor : Option Nat}
  {nodes classes : List Nat} {lists : Nat → List Nat}

theorem map_searchFrom (l : FreeLists) (r : Region) (need fuel : Nat) (cursor : Option Nat) :
    (l.searchFrom r need fuel cursor).map Prod.snd = l.fitFrom r need fuel cursor := by
  induction fuel generalizing cursor with
  | zero => cases cursor <;> rfl
  | succ fuel ih =>
      cases cursor with
      | none => rfl
      | some a =>
          rw [searchFrom, fitFrom]
          cases r.header a with
          | error e => rfl
          | ok t =>
              rw [Fault.ok_bind, Fault.ok_bind]
              split
              case isTrue => rfl
              case isFalse =>
                cases l.links.next r a with
                | error e => rfl
                | ok next =>
                    rw [Fault.ok_bind, Fault.ok_bind, ← ih next]
                    cases l.searchFrom r need fuel next <;> rfl

theorem map_searchInClass (l : FreeLists) (r : Region) (need index : Nat) :
    (l.searchInClass r need index).map Prod.snd = l.fitInClass r need index := by
  rw [searchInClass, fitInClass]
  cases l.first r index with
  | error e => rfl
  | ok cursor => exact map_searchFrom l r need (r.size + 1) cursor

theorem map_searchInClasses (l : FreeLists) (r : Region) (need : Nat) (classes : List Nat) :
    (l.searchInClasses r need classes).map Prod.snd = l.fitInClasses r need classes := by
  induction classes with
  | nil => rfl
  | cons k classes ih =>
      rw [searchInClasses, fitInClasses, ← map_searchInClass]
      rcases l.searchInClass r need k with e | ⟨seen, _ | a⟩
      · rfl
      · show (l.searchInClasses r need classes >>= _).map Prod.snd = l.fitInClasses r need classes
        rw [← ih]
        cases l.searchInClasses r need classes <;> rfl
      · rfl

/-- The record changes nothing in the search. -/
theorem map_search (l : FreeLists) (r : Region) (need : Nat) :
    (l.search r need).map Prod.snd = l.firstFit r need :=
  map_searchInClasses l r need _

/-! ## Where the search goes -/

theorem searchFrom_spec (h : l.Threads r prev cursor nodes) (hbase : l.base < 0x8000000000000000)
    (hspot : ∀ a ∈ nodes, 4 ≤ a ∧ a + 8 ≤ r.size) (hfuel : nodes.length ≤ fuel) :
    ∃ seen, l.searchFrom r need fuel cursor
        = .ok (seen, nodes.find? fun a => decide (need ≤ (r.tagAt a).size))
      ∧ seen.Sublist nodes := by
  induction nodes generalizing prev cursor fuel with
  | nil =>
      cases h
      refine ⟨[], ?_, List.Sublist.refl _⟩
      cases fuel <;> rfl
  | cons a nodes ih =>
      rcases h with ⟨rfl, -, hrest⟩
      have ha := hspot a List.mem_cons_self
      cases fuel with
      | zero => cases hfuel
      | succ fuel =>
          rw [searchFrom, Region.header_eq ha.1 (by omega), Fault.ok_bind, List.find?_cons]
          split
          case isTrue hfit =>
            refine ⟨[a], ?_, List.singleton_sublist.2 List.mem_cons_self⟩
            rw [decide_eq_true hfit, Fault.pure_eq_ok]
          case isFalse hfit =>
            rcases ih hrest (fun b hb => hspot b (List.mem_cons_of_mem _ hb))
              (Nat.le_of_succ_le_succ hfuel) with ⟨seen, hseen, hsub⟩
            refine ⟨a :: seen, ?_, hsub.cons_cons a⟩
            rw [decide_eq_false hfit, Links.next_eq hbase ha.2, Fault.ok_bind, hseen, Fault.ok_bind]
            rfl

theorem searchInClasses_spec {fits : Nat → Option Nat}
    (h : ∀ k ∈ classes, ∃ seen, l.searchInClass r need k = .ok (seen, fits k)
      ∧ seen.Sublist (lists k)) :
    ∃ seen, l.searchInClasses r need classes = .ok (seen, classes.findSome? fits)
      ∧ seen.Sublist (classes.flatMap lists) := by
  induction classes with
  | nil => exact ⟨[], rfl, List.Sublist.refl _⟩
  | cons k classes ih =>
      rcases h k List.mem_cons_self with ⟨seen, hseen, hsub⟩
      rw [searchInClasses, hseen, Fault.ok_bind, List.findSome?_cons, List.flatMap_cons]
      cases fits k with
      | none =>
          rcases ih fun j hj => h j (List.mem_cons_of_mem _ hj) with ⟨more, hmore, hsub'⟩
          refine ⟨seen ++ more, ?_, hsub.append hsub'⟩
          simp only
          rw [hmore, Fault.ok_bind]
          rfl
      | some a => exact ⟨seen, rfl, hsub.trans (List.sublist_append_left _ _)⟩

end FreeLists

namespace Region

variable {r : Region} {lo need x : Nat} {es : List Extent} {lists : Nat → List Nat}

/-- The search looks through the lists in order, as far as it has to. -/
theorem Holds.search_spec (h : r.Holds ⟨lo, es, lists⟩) (need : Nat) :
    ∃ seen, (FreeLists.at lo).search r need
        = .ok (seen, ((List.range SizeClass.count).drop (SizeClass.of need)).findSome? fun k =>
            (lists k).find? fun a => decide (need ≤ (r.tagAt a).size))
      ∧ seen.Sublist (((List.range SizeClass.count).drop (SizeClass.of need)).flatMap lists) := by
  have hr := r.size_lt
  refine FreeLists.searchInClasses_spec fun k hk => ?_
  have hk : k < SizeClass.count := List.mem_range.1 (List.mem_of_mem_drop hk)
  have hsent : (FreeLists.at lo).Spot r ((FreeLists.at lo).sentinelAt k) :=
    FreeLists.spot_sentinel h.chained.le_size hk
  have hnode : ∀ a ∈ lists k, 4 ≤ a ∧ a + 8 ≤ r.size := by
    intro a ha
    rcases h.listed.located ha with ⟨m, hm, -, -⟩
    have hb := located_bounds hm
    have hm16 := h.chained.tagged.large.size hm
    rw [h.chained.stop_eq] at hb
    simp only [frameSize] at hb hm16
    omega
  -- a list without repetitions is no longer than the region
  have hfuel : (lists k).length ≤ r.size + 1 := by
    have hsub : lists k ⊆ List.range (r.size + 1) := by
      intro a ha
      have := hnode a ha
      exact List.mem_range.2 (by omega)
    have := List.Nodup.length_le_of_subset (h.once k) hsub
    rwa [List.length_range] at this
  rw [FreeLists.searchInClass, FreeLists.first, FreeLists.sentinel_eq hk hsent, Fault.ok_bind,
    Links.next_eq hsent.base_lt hsent.2.2, Fault.ok_bind]
  exact FreeLists.searchFrom_spec (h.threads k hk) hsent.base_lt hnode hfuel

/-- The search finds the first listed block that is large enough. -/
theorem Holds.firstFit_eq (h : r.Holds ⟨lo, es, lists⟩) (need : Nat) :
    (FreeLists.at lo).firstFit r need
      = .ok (((List.range SizeClass.count).drop (SizeClass.of need)).findSome? fun k =>
          (lists k).find? fun a => decide (need ≤ (r.tagAt a).size)) := by
  rcases h.search_spec need with ⟨seen, hsearch, -⟩
  rw [← FreeLists.map_search, hsearch]
  rfl

/-- The search finds what the plan says. -/
theorem Holds.firstFit_planned (h : r.Holds ⟨lo, es, lists⟩) (need : Nat) :
    (FreeLists.at lo).firstFit r need = .ok ((⟨lo, es, lists⟩ : Plan).firstFit need) := by
  have hsize : ∀ k, ∀ a ∈ lists k, (r.tagAt a).size = (⟨lo, es, lists⟩ : Plan).sizeAt a := by
    intro k a ha
    rcases h.listed.located ha with ⟨n, hn, -, -⟩
    rcases h.chained.tagged.at hn with ⟨p, ht⟩
    rw [ht.size, Plan.sizeAt_of_mem h.chained.tagged.large hn]
  have hfind : ∀ k, (lists k).find? (fun a => decide (need ≤ (r.tagAt a).size))
      = (lists k).find? fun a => decide (need ≤ (⟨lo, es, lists⟩ : Plan).sizeAt a) :=
    fun k => List.find?_congr fun a ha => by rw [hsize k a ha]
  rw [h.firstFit_eq need, Plan.firstFit]
  simp only [hfind]

/-- What the search finds is a free block that is large enough. -/
theorem Holds.firstFit_located (h : r.Holds ⟨lo, es, lists⟩)
    (hx : (FreeLists.at lo).firstFit r need = .ok (some x)) :
    ∃ n, (x, ⟨n, false⟩) ∈ located (lo + frameSize) es ∧ need ≤ n := by
  rw [h.firstFit_eq need] at hx
  rcases List.exists_of_findSome?_eq_some (Except.ok.inj hx) with ⟨k, -, hk⟩
  rcases h.listed.located (List.mem_of_find?_eq_some hk) with ⟨n, hn, -, -⟩
  rcases h.chained.tagged.at hn with ⟨p, ht⟩
  have hfit := List.find?_some (p := fun a => decide (need ≤ (r.tagAt a).size)) hk
  rw [decide_eq_true_iff, ht.size] at hfit
  exact ⟨n, hn, hfit⟩

theorem mem_drop_range {k m n : Nat} : k ∈ (List.range n).drop m ↔ m ≤ k ∧ k < n := by
  constructor
  · intro hk
    rcases List.mem_drop_iff_getElem.1 hk with ⟨i, hi, hget⟩
    rw [List.length_range] at hi
    rw [List.getElem_range] at hget
    omega
  · rintro ⟨hm, hk⟩
    refine List.mem_drop_iff_getElem.2 ⟨k - m, ?_, ?_⟩
    · rw [List.length_range]
      omega
    · rw [List.getElem_range]
      omega

/-- Classes are searched upwards. -/
theorem mem_of_lt_searched {j k m n : Nat} {low high : List Nat}
    (h : (List.range n).drop m = low ++ k :: high) (hm : m ≤ j) (hj : j < k) : j ∈ low := by
  have hk : k ∈ (List.range n).drop m := h ▸ List.mem_append_right low List.mem_cons_self
  have hmem : j ∈ low ++ k :: high :=
    h ▸ mem_drop_range.2 ⟨hm, Nat.lt_trans hj (mem_drop_range.1 hk).2⟩
  have hsorted : (low ++ k :: high).Pairwise (· < ·) := h ▸ List.pairwise_lt_range.drop
  have hhigh := (List.pairwise_cons.1 (List.pairwise_append.1 hsorted).2.1).1
  rcases List.mem_append.1 hmem with hlow | hrest
  · exact hlow
  · rcases List.mem_cons.1 hrest with rfl | hrest
    · exact absurd hj (Nat.lt_irrefl _)
    · exact absurd (hhigh j hrest) (Nat.lt_asymm hj)

/-- The search ends at the first block of its list that is large enough, and no block of a lower
class is. -/
theorem Holds.firstFit_spec (h : r.Holds ⟨lo, es, lists⟩)
    (hx : (FreeLists.at lo).firstFit r need = .ok (some x)) :
    ∃ k l₁ l₂, SizeClass.of need ≤ k ∧ k < SizeClass.count ∧ lists k = l₁ ++ x :: l₂
      ∧ need ≤ (r.tagAt x).size ∧ (∀ y ∈ l₁, (r.tagAt y).size < need)
      ∧ ∀ j < k, ∀ y ∈ lists j, (r.tagAt y).size < need := by
  rw [h.firstFit_eq need] at hx
  rcases List.findSome?_eq_some_iff.1 (Except.ok.inj hx) with ⟨low, k, high, hclasses, hk, hlow⟩
  rcases List.find?_eq_some_iff_append.1 hk with ⟨hfit, l₁, l₂, hlist, hbefore⟩
  have hmem : k ∈ (List.range SizeClass.count).drop (SizeClass.of need) := by
    rw [hclasses]
    exact List.mem_append_right low List.mem_cons_self
  have hrange : SizeClass.of need ≤ k ∧ k < SizeClass.count := mem_drop_range.1 hmem
  refine ⟨k, l₁, l₂, hrange.1, hrange.2, hlist, of_decide_eq_true hfit, ?_, ?_⟩
  · intro y hy
    simpa using hbefore y hy
  · intro j hj y hy
    rcases Nat.lt_or_ge j (SizeClass.of need) with hbelow | habove
    · -- the blocks of a class that is not searched are too small
      rcases h.listed.located hy with ⟨n, hn, hclass, -⟩
      rcases h.chained.tagged.at hn with ⟨p, ht⟩
      apply Nat.lt_of_not_le
      intro hle
      rw [ht.size] at hle
      have hup : SizeClass.of need ≤ SizeClass.of n := SizeClass.of_le_of hle
      have hj : SizeClass.of n = j := hclass
      omega
    · have hnone := List.find?_eq_none.1 (hlow j (mem_of_lt_searched hclasses habove hj)) y hy
      simpa using hnone

/-- The search misses no block: it finds none exactly if no free block is large enough. -/
theorem Holds.firstFit_eq_none_iff (h : r.Holds ⟨lo, es, lists⟩) :
    (⟨lo, es, lists⟩ : Plan).firstFit need = none
      ↔ ∀ x n, (x, ⟨n, false⟩) ∈ located (lo + frameSize) es → n < need := by
  constructor
  · intro hnone x n hx
    apply Nat.lt_of_not_le
    intro hfit
    -- the class of a block that is large enough is one of those that are searched
    have hlist : x ∈ lists (SizeClass.of n) := (h.listed _ x).2 ⟨by omega, n, hx, rfl⟩
    have hclass := mem_drop_range.2 ⟨SizeClass.of_le_of hfit, SizeClass.of_lt_count n⟩
    have hfind := List.findSome?_eq_none_iff.1 hnone _ hclass
    refine List.find?_eq_none.1 hfind x hlist (decide_eq_true ?_)
    rw [Plan.sizeAt_of_mem h.chained.tagged.large hx]
    exact hfit
  · intro hsmall
    cases hfirst : (⟨lo, es, lists⟩ : Plan).firstFit need with
    | none => rfl
    | some x =>
        have hsearch := h.firstFit_planned need
        rw [hfirst] at hsearch
        rcases h.firstFit_located hsearch with ⟨n, hn, hfit⟩
        exact absurd hfit (Nat.not_le.2 (hsmall x n hn))

end Region

end BoundaryTag
