import BoundaryTag.Plan.Run
import BoundaryTag.Proofs.HeapGrowth
import BoundaryTag.Proofs.FreeingOrder

/-!
# PlanSteps — what every step of a plan keeps

All that a plan does is to place blocks, to grow and to free. What these three keep is kept by every
step.

* `Plan.step_keeps`: the three cases from which everything else follows.
* `Plan.top_place` and `Plan.top_free`: a plan ends where it did before, and `Plan.top_grow`: or
  further up by what it has grown.
* `Plan.top_le_step`: so it never ends further down.
* `Heap.Follows.size_eq`: the region of a heap ends where its plan does.
-/

namespace BoundaryTag

namespace Extent

variable {a x : Nat} {e : Extent} {es new : List Extent}

/-! ## Ends -/

theorem stop_join (a : Nat) (e : Extent) (es : List Extent) :
    stop a (join e es) = stop a (e :: es) := by
  cases es with
  | nil => rfl
  | cons f es =>
      rw [join]
      split
      · rw [stop_cons, stop_cons, stop_cons, Nat.add_assoc]
      · rfl

theorem stop_merge (a : Nat) (es : List Extent) : stop a (merge es) = stop a es := by
  induction es generalizing a with
  | nil => rfl
  | cons e es ih => rw [merge_cons, stop_join, stop_cons, ih, stop_cons]

/-- What takes the place of an extent ends where that did. -/
theorem stop_replaceAt (h : ∀ e, find? x a es = some e → stop x new = x + e.size) :
    stop a (replaceAt x new a es) = stop a es := by
  induction es generalizing a with
  | nil => rfl
  | cons e es ih =>
      rw [replaceAt]
      split
      case isTrue hax =>
        subst hax
        have hnew := h e List.lookup_cons_self
        rw [stop_append, hnew, stop_cons]
      case isFalse hax =>
        rw [stop_cons, stop_cons]
        apply ih
        intro f hf
        apply h
        rw [find?, located, List.lookup_cons, beq_false_of_ne (Ne.symm hax)]
        exact hf

/-- Every byte between the start and the end belongs to an extent. -/
theorem exists_covering (hx : a ≤ x) (h : x < stop a es) : ∃ q, covering? x a es = some q := by
  induction es generalizing a with
  | nil => exact absurd h (Nat.not_lt.2 hx)
  | cons e es ih =>
      rw [covering?]
      split
      case isTrue => exact ⟨_, rfl⟩
      case isFalse hout =>
        rw [stop_cons] at h
        exact ih (by omega) h

end Extent

namespace Plan

open Extent

variable {p : Plan}

/-! ## Steps -/

section Keeps

variable {P : Plan → Prop} (config : Config) (admits : Nat → Bool)
  (hplace : ∀ q a need, P q → P (q.place a need).1) (hgrow : ∀ q n, P q → P (q.grow n).1)
  (hfree : ∀ q a, P q → P (q.free a).1)

include hplace hgrow

theorem allocate_keeps (size : Nat) (hp : P p) : P (p.allocate config admits size).1 := by
  unfold allocate
  split
  · exact hp
  · split
    · exact hp
    · split
      · exact hplace _ _ _ hp
      · split
        · exact hp
        · exact hplace _ _ _ (hgrow _ _ hp)

include hfree

theorem resize_keeps (a : Option Nat) (size : Nat) (hp : P p) :
    P (p.resize config admits a size).1 := by
  have ha := allocate_keeps config admits hplace hgrow size hp
  unfold resize
  split
  · split
    · exact hp
    · exact hfree _ _ hp
  · rcases hq : p.allocate config admits size with ⟨q, (_ | _ | _), events⟩ <;> rw [hq] at ha
    · exact ha
    · cases a <;> exact ha
    · cases a with
      | none => exact ha
      | some a => exact hfree _ _ ha

/-- What placing, growing and freeing keep is kept by every step. -/
theorem step_keeps (call : Call) (hp : P p) : P (p.step config admits call).1 := by
  cases call with
  | allocate size => exact allocate_keeps config admits hplace hgrow size hp
  | tryAllocate size =>
      have ha := allocate_keeps config admits hplace hgrow size hp
      rw [step]
      rcases hq : p.allocate config admits size with ⟨q, (_ | _), events⟩ <;> rw [hq] at ha
      · exact ha
      · exact ha
  | allocateZeroed count size =>
      rw [step]
      split
      · exact allocate_keeps config admits hplace hgrow _ hp
      · exact hp
  | free a =>
      cases a with
      | none => exact hp
      | some a => exact hfree _ _ hp
  | resize a size => exact resize_keeps config admits hplace hgrow hfree a size hp
  | write a start bytes => exact hp

end Keeps

/-! ## Where a plan ends -/

theorem growth_eq_ok {admits : Nat → Bool} {bytes n : Nat}
    (h : p.growth admits bytes = .ok n) : growthFor bytes = some n := by
  unfold growth at h
  split at h
  · cases h
  · rename_i size hsize
    split at h
    · cases h
    · split at h
      · cases h
      · split at h
        · cases h
          exact hsize
        · cases h

theorem top_settle {es : List Extent} {x n : Nat} (hx : p.start ≤ x) (h : x < stop p.start es) :
    (p.settle es x n).1.top = stop p.start es := by
  rcases exists_covering hx ((stop_merge p.start es).symm ▸ h) with ⟨⟨a, m⟩, hcover⟩
  rw [settle, hcover]
  exact stop_merge p.start es

/-- If there is nothing at `x` then the plan is as it was. -/
theorem top_settle_of_eq {es : List Extent} (x n : Nat) (h : stop p.start es = p.top) :
    (p.settle es x n).1.top = p.top := by
  rw [settle]
  split
  · rfl
  · exact (stop_merge p.start es).trans h

theorem top_place (p : Plan) (a need : Nat) : (p.place a need).1.top = p.top := by
  have hsize : ∀ e, Extent.find? a p.start p.extents = some e → p.sizeAt a = e.size := by
    intro e he
    rw [sizeAt, find?, he]
    rfl
  rw [place]
  split
  case isTrue hleft =>
    have hleft : 16 ≤ p.sizeAt a - need := hleft
    refine stop_replaceAt fun e he => ?_
    rw [← hsize e he]
    show a + need + (p.sizeAt a - need) = a + p.sizeAt a
    omega
  case isFalse =>
    refine stop_replaceAt fun e he => ?_
    rw [stop_cons, stop_nil, hsize e he]

theorem top_free (p : Plan) (a : Nat) : (p.free a).1.top = p.top := by
  refine top_settle_of_eq a _ (stop_replaceAt fun e he => ?_)
  rw [stop_cons, stop_nil, sizeAt, find?, he]
  rfl

theorem top_grow (p : Plan) {n : Nat} (hn : 0 < n) : (p.grow n).1.top = p.top + n := by
  have hstop : stop p.start (p.extents ++ [⟨n, false⟩]) = p.top + n := by
    rw [stop_append]
    rfl
  have hsettle := top_settle (p := p) (n := n) (le_stop p.start p.extents)
    (by rw [hstop]; exact Nat.lt_add_of_pos_right hn)
  exact hsettle.trans hstop

/-- A plan never comes to end further down. -/
theorem top_le_step (p : Plan) (config : Config) (admits : Nat → Bool) (call : Call) :
    p.top ≤ (p.step config admits call).1.top := by
  refine step_keeps (P := fun q => p.top ≤ q.top) config admits (fun q a need hq => ?_)
    (fun q n hq => ?_) (fun q a hq => ?_) call (Nat.le_refl _)
  · rw [top_place]
    exact hq
  · rcases Nat.eq_zero_or_pos n with rfl | hn
    · have hstop : stop q.start (q.extents ++ [⟨0, false⟩]) = q.top := by
        rw [stop_append]
        rfl
      exact Nat.le_trans hq (Nat.le_of_eq (top_settle_of_eq q.top 0 hstop).symm)
    · rw [top_grow q hn]
      exact Nat.le_trans hq (Nat.le_add_right _ _)
  · rw [top_free]
    exact hq

end Plan

namespace Heap.Follows

variable {h h' : Heap} {q : Plan} {events : List Event}

/-- The region of a heap ends where its plan does. -/
theorem size_eq (hf : h.Follows h' q events) : h'.region.size = q.top := by
  rw [Plan.top, Plan.start, hf.start]
  exact hf.settled.drawn.stop_eq.symm

end Heap.Follows

end BoundaryTag
