import BoundaryTag.Audit.Outline
import BoundaryTag.Proofs.PlanResults

/-!
# FreeingOrder — blocks that become free, in any order

When blocks become free one after the other, and neighbours are joined each time, the result is that
of making all of them free first and joining neighbours once. Which blocks they are matters, and not
their order.

* `merge_vacate_merge`: neighbours that were joined before do not change the result.
* `vacate_vacate` and `vacate_congr`: blocks become free in any order.
* `merge_vacate_all`: when all blocks become free, one is left.
* `Plan.extents_free`: so a plan frees one block after the other.
-/

namespace BoundaryTag

namespace Extent

variable {a x b c n : Nat} {e f : Extent} {es fs pre post : List Extent} {xs ys : List Nat}

/-! ## Joining -/

theorem join_used (e : Extent) (n : Nat) (es : List Extent) :
    join e (⟨n, true⟩ :: es) = e :: ⟨n, true⟩ :: es :=
  if_neg fun hc => Bool.noConfusion hc.2

/-- Two free extents that are next to each other are as one for what follows. -/
theorem join_join (b c : Nat) (es : List Extent) :
    join ⟨b, false⟩ (join ⟨c, false⟩ es) = join ⟨b + c, false⟩ es := by
  cases es with
  | nil => exact join_free b c []
  | cons f es =>
      rcases f with ⟨n, _ | _⟩
      · rw [join_free, join_free, join_free, Nat.add_assoc]
      · rw [join_used, join_used, join_free]

theorem merge_cons (e : Extent) (es : List Extent) : merge (e :: es) = join e (merge es) := rfl

theorem join_ne_nil (e : Extent) (es : List Extent) : join e es ≠ [] := by
  cases es with
  | nil => exact List.cons_ne_nil _ _
  | cons f es =>
      rw [join]
      split <;> exact List.cons_ne_nil _ _

theorem merge_ne_nil (h : es ≠ []) : merge es ≠ [] := by
  cases es with
  | nil => exact absurd rfl h
  | cons e es =>
      rw [merge_cons]
      exact join_ne_nil e _

/-- Extents that are all free become one. -/
theorem merge_of_free (h : ∀ f ∈ e :: es, f.allocated = false) :
    merge (e :: es) = [⟨stop a (e :: es) - a, false⟩] := by
  induction es generalizing a e with
  | nil =>
      rcases e with ⟨n, _ | _⟩
      · rw [stop_cons, stop_nil, Nat.add_sub_cancel_left]
        rfl
      · exact absurd (h _ List.mem_cons_self) Bool.noConfusion
  | cons f es ih =>
      rcases e with ⟨n, _ | _⟩
      · have hle := le_stop (a + n) (f :: es)
        have hstop : stop a (⟨n, false⟩ :: f :: es) = stop (a + n) (f :: es) := rfl
        rw [merge_cons, ih (a := a + n) fun g hg => h g (List.mem_cons_of_mem _ hg), join_free,
          hstop]
        congr 2
        omega
      · exact absurd (h _ List.mem_cons_self) Bool.noConfusion

/-! ## Vacating -/

theorem vacate_append (xs : List Nat) (a : Nat) (es fs : List Extent) :
    vacate xs a (es ++ fs) = vacate xs a es ++ vacate xs (stop a es) fs := by
  induction es generalizing a with
  | nil => rfl
  | cons e es ih => rw [List.cons_append, vacate, ih, vacate, List.cons_append, stop_cons]

theorem vacate_congr (h : ∀ x, x ∈ xs ↔ x ∈ ys) (a : Nat) (es : List Extent) :
    vacate xs a es = vacate ys a es := by
  induction es generalizing a with
  | nil => rfl
  | cons e es ih => rw [vacate, vacate, ih, decide_eq_decide.2 (not_congr (h a))]

/-- First some blocks become free and then others. -/
theorem vacate_vacate (xs ys : List Nat) (a : Nat) (es : List Extent) :
    vacate ys a (vacate xs a es) = vacate (xs ++ ys) a es := by
  induction es generalizing a with
  | nil => rfl
  | cons e es ih =>
      have hmem : decide (a ∉ xs ++ ys) = (decide (a ∉ xs) && decide (a ∉ ys)) := by
        simp [List.mem_append, not_or]
      rw [vacate, vacate, vacate, ih, hmem, Bool.and_assoc]

theorem vacate_eq_self (h : ∀ x n, (x, ⟨n, true⟩) ∈ located a es → x ∉ xs) :
    vacate xs a es = es := by
  induction es generalizing a with
  | nil => rfl
  | cons e es ih =>
      rw [vacate, ih fun x n hx => h x n (List.mem_cons_of_mem _ hx)]
      rcases e with ⟨n, _ | _⟩
      · rfl
      · rw [decide_eq_true (h a n List.mem_cons_self)]
        rfl

/-- One block becomes free. -/
theorem vacate_split {allocated : Bool} (hl : Large (pre ++ ⟨n, allocated⟩ :: post))
    (hx : stop a pre = x) :
    vacate [x] a (pre ++ ⟨n, allocated⟩ :: post) = pre ++ ⟨n, false⟩ :: post := by
  have hbefore : vacate [x] a pre = pre := by
    refine vacate_eq_self fun y k hy => ?_
    have := located_bounds hy
    have := (Large.append.1 hl).1.size hy
    simp only [List.mem_singleton]
    simp only at *
    omega
  have hn : 16 ≤ n := (Large.cons.1 (Large.append.1 hl).2).1
  have hafter : vacate [x] (x + n) post = post := by
    refine vacate_eq_self fun y k hy => ?_
    have := located_bounds hy
    simp only [List.mem_singleton]
    omega
  rw [vacate_append, hbefore, hx, vacate, hafter,
    decide_eq_false (not_not_intro List.mem_cons_self), Bool.and_false]

theorem vacate_ne_nil (h : es ≠ []) : vacate xs a es ≠ [] := by
  cases es with
  | nil => exact absurd rfl h
  | cons e es => exact List.cons_ne_nil _ _

theorem stop_vacate (xs : List Nat) (a : Nat) (es : List Extent) :
    stop a (vacate xs a es) = stop a es := by
  induction es generalizing a with
  | nil => rfl
  | cons e es ih => rw [vacate, stop_cons, stop_cons, ih]

/-- Nothing is in use once everything has become free. -/
theorem vacate_all (h : ∀ x n, (x, ⟨n, true⟩) ∈ located a es → x ∈ xs) :
    ∀ f ∈ vacate xs a es, f.allocated = false := by
  induction es generalizing a with
  | nil => exact nofun
  | cons e es ih =>
      intro f hf
      rcases List.mem_cons.1 hf with rfl | hf
      · rcases e with ⟨n, _ | _⟩
        · rfl
        · rw [decide_eq_false (not_not_intro (h a n List.mem_cons_self))]
          rfl
      · exact ih (fun x n hx => h x n (List.mem_cons_of_mem _ hx)) f hf

/-- One free block is left once everything has become free. -/
theorem merge_vacate_all (hne : es ≠ []) (h : ∀ x n, (x, ⟨n, true⟩) ∈ located a es → x ∈ xs) :
    merge (vacate xs a es) = [⟨stop a es - a, false⟩] := by
  have hfree := vacate_all h
  cases hv : vacate xs a es with
  | nil => exact absurd hv (vacate_ne_nil hne)
  | cons f fs =>
      rw [hv] at hfree
      rw [merge_of_free (a := a) hfree, ← hv, stop_vacate]

/-- Whether neighbours are joined before more blocks become free makes no difference. -/
theorem merge_vacate_merge (xs : List Nat) (a : Nat) (es : List Extent) :
    merge (vacate xs a (merge es)) = merge (vacate xs a es) := by
  induction es generalizing a with
  | nil => rfl
  | cons e es ih =>
      have hrest := ih (a + e.size)
      rw [vacate, merge_cons, merge_cons, ← hrest]
      -- only two free extents are joined
      cases hm : merge es with
      | nil => rfl
      | cons f fs =>
          rcases e with ⟨n, _ | _⟩
          · rcases f with ⟨k, _ | _⟩
            · rw [join_free, vacate, vacate, merge_cons, merge_cons]
              simp only [Bool.false_and]
              rw [join_join, Nat.add_assoc]
            · rw [join_used, vacate, merge_cons]
          · rw [join_of_allocated rfl, vacate, merge_cons]

end Extent

namespace Plan

open Extent

variable {lo x n : Nat} {es : List Extent} {lists : Nat → List Nat}

/-- A plan frees a block by marking it free and joining neighbours. -/
theorem extents_free (htidy : Tidy false es) (hl : Large es)
    (hx : (x, ⟨n, true⟩) ∈ located (lo + frameSize) es) :
    ((⟨lo, es, lists⟩ : Plan).free x).1.extents = merge (vacate [x] (lo + frameSize) es) := by
  rcases htidy.exists_around hl hx with ⟨pre, b, f, post, rfl, hx', hpre, hpost⟩
  have hbefore := (Tidy.append.1 (Tidy.append.1 htidy).1).1
  have hmark : vacate [x] (lo + frameSize) (pre ++ gap b ++ ⟨n, true⟩ :: (gap f ++ post))
      = pre ++ gap b ++ ⟨n, false⟩ :: (gap f ++ post) :=
    vacate_split hl (by rw [stop_append, stop_gap, hx'])
  rw [hmark, merge_between hbefore hpre hpost, ← hx',
    free_between lists lo hl rfl rfl hbefore hpre hpost]

end Plan

end BoundaryTag
