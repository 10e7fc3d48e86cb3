import BoundaryTag.Proofs.ClientInvariant
import BoundaryTag.Proofs.PlanSteps

/-!
# FreeSupply — the free block behind a pointer

A pointer that is handed out is the address of a free block, of which the front comes into use. The
search finds that block, or growth makes it.

* `Plan.Supplies` says from which plan the block is taken. Whatever is handed out is supplied
  (`Plan.allocate_eq_some`).
* `Plan.Supplies.eq_self`: a plan that ends where it did before has not grown for it.
* `Plan.exists_place`: the block that comes into use has the size that was needed, or all of the
  free block if no other block can be made of the rest.
-/

namespace BoundaryTag

open Extent

namespace Plan

open FreeLists

variable {p q r : Plan} {config : Config} {admits : Nat → Bool} {size need n a : Nat}
  {events : List Event}

/-! ## Where a block comes from -/

/-- The free block at `a` of `q` serves a request for `need` bytes. It is the first that fits, and
if there is none, the one at the top after growth. -/
inductive Supplies (p : Plan) (config : Config) (admits : Nat → Bool) (need a : Nat) :
    Plan → Prop where
  | found (hfit : p.firstFit need = some a) : p.Supplies config admits need a p
  | grown {q : Plan} {n : Nat} {events : List Event} (hnone : p.firstFit need = none)
      (hgrowth : p.growth admits (max need config.growFloor) = .ok n)
      (hgrow : p.grow n = (q, a, events)) : p.Supplies config admits need a q

/-- What is handed out is the front of a block that serves the request. -/
theorem allocate_eq_some (h : p.allocate config admits size = (r, .ok (some a), events)) :
    ∃ need q, (blockFor size).filter (· ≤ maxBlock) = some need ∧ p.Supplies config admits need a q
      ∧ r = (q.place a need).1 := by
  unfold allocate at h
  split at h
  case isTrue => cases h
  case isFalse =>
    cases hneed : (blockFor size).filter (· ≤ maxBlock) with
    | none =>
        rw [hneed] at h
        cases h
    | some need =>
        rw [hneed] at h
        simp only at h
        cases hfit : p.firstFit need with
        -- the search has found the block
        | some x =>
            rw [hfit] at h
            cases h
            exact ⟨need, p, rfl, .found hfit, rfl⟩
        | none =>
            rw [hfit] at h
            simp only at h
            cases hgrowth : p.growth admits (max need config.growFloor) with
            | error e =>
                rw [hgrowth] at h
                cases h
            -- growth has made it
            | ok n =>
                rw [hgrowth] at h
                simp only at h
                rcases hgrow : p.grow n with ⟨q, x, grown⟩
                rw [hgrow] at h
                cases h
                exact ⟨need, q, rfl, .grown hfit hgrowth hgrow, rfl⟩

/-- A plan that has grown ends further up. -/
theorem Supplies.eq_self (h : p.Supplies config admits need a q) (htop : q.top = p.top) :
    q = p ∧ p.firstFit need = some a := by
  cases h with
  | found hfit => exact ⟨rfl, hfit⟩
  | @grown _ n _ hnone hgrowth hgrow =>
      have hmin := (growthFor_eq_some (growth_eq_ok hgrowth)).1
      have hn : 0 < n := Nat.lt_of_lt_of_le (by decide) hmin
      have hlonger : q.top = p.top + n := by
        rw [← top_grow p hn, hgrow]
      omega

/-! ## What comes into use -/

theorem drop_push {lists : Nat → List Nat} {u v : Nat} (hu : u ≤ a) (hv : a < v) :
    drop (push lists a n) u v = drop lists u v := by
  funext index
  unfold drop
  rw [push]
  split
  · rw [List.filter_cons_of_neg]
    simpa using ⟨hu, hv⟩
  · rfl

/-- The front of a free block comes into use, or all of it if the rest is too small for a block. The
rest is a gap after it. -/
theorem exists_place (hl : Large p.extents) (ha : (a, ⟨n, false⟩) ∈ located p.start p.extents)
    (hmin : minBlock ≤ need) (hfit : need ≤ n) :
    ∃ pre post m f lists, p.extents = pre ++ ⟨n, false⟩ :: post ∧ stop p.start pre = a
      ∧ (p.place a need).1 = ⟨p.lo, pre ++ ⟨m, true⟩ :: (gap f ++ post), lists⟩
      ∧ minBlock ≤ m ∧ m + f = n ∧ (m = need ∧ minBlock ≤ f ∨ f = 0 ∧ n < need + minBlock)
      ∧ drop lists a (a + n) = drop p.lists a (a + n) := by
  rcases p with ⟨lo, es, lists⟩
  rcases exists_split ha with ⟨pre, post, hes, hx⟩
  obtain rfl : es = pre ++ ⟨n, false⟩ :: post := hes
  have hx : stop (lo + frameSize) pre = a := hx.symm
  simp only [minBlock] at hmin ⊢
  by_cases hleft : minBlock ≤ n - need
  · have hrest : 16 ≤ n - need := hleft
    refine ⟨pre, post, need, n - need, push (drop lists a (a + 1)) (a + need) (n - need), rfl, hx,
      ?_, hmin, by omega, .inl ⟨rfl, hrest⟩, ?_⟩
    · rw [place_split lists hl hx hleft, gap_of_ne (by omega), List.append_assoc]
      rfl
    · rw [drop_push (by omega) (by omega), drop_drop (by omega) (by omega)]
  · have hrest : ¬16 ≤ n - need := hleft
    refine ⟨pre, post, n, 0, drop lists a (a + 1), rfl, hx, ?_, by omega, rfl,
      .inr ⟨rfl, by omega⟩, ?_⟩
    · rw [place_whole lists hl hx hleft, List.append_assoc]
      rfl
    · exact drop_drop (by omega) (by omega)

end Plan

end BoundaryTag
