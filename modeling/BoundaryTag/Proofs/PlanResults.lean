import BoundaryTag.Proofs.Extents

/-!
# PlanResults — what the steps of a plan come to

A plan looks its blocks up by address and joins free neighbours wherever they are. Where the
neighbours of a block are known, the results can be written down.

* `find?_of_mem`, `replaceAt_split` and `covering?_split`: the extent at an address is found.
* `merge_between`: between tidy extents, only the gaps on either side of a new free block join it.
* `Plan.place_split` and `Plan.place_whole`: the front of a free block, or all of it, comes into
  use.
* `Plan.free_between` and `Plan.grow_between`: a block that becomes free takes its neighbours in.
  The first block of a heap has none (`Plan.grow_fresh`).
* `Plan.exists_free`: so the block that was freed is a part of a free one, and the others are in use
  as before (`Plan.inUse_free`).
-/

namespace BoundaryTag

namespace Extent

variable {a x y n b c : Nat} {e : Extent} {es fs pre post new : List Extent} {p : Bool}

/-! ## Extents by address -/

theorem find?_of_mem (hl : Large es) (h : (x, e) ∈ located a es) : find? x a es = some e := by
  induction es generalizing a with
  | nil => cases h
  | cons f es ih =>
      rcases Large.cons.1 hl with ⟨hf, hes⟩
      rcases mem_located_cons.1 h with ⟨rfl, rfl⟩ | h
      · exact List.lookup_cons_self
      · -- what follows the first extent is past its address
        have hb := (located_bounds h).1
        simp only [minBlock] at hf
        have hne : (x == a) = false := beq_false_of_ne (by omega)
        rw [find?, located, List.lookup_cons, hne]
        exact ih hes h

theorem replaceAt_split (hl : Large pre) (hx : stop a pre = x) :
    replaceAt x new a (pre ++ e :: post) = pre ++ (new ++ post) := by
  induction pre generalizing a with
  | nil => exact if_pos hx
  | cons f pre ih =>
      rcases Large.cons.1 hl with ⟨hf, hpre⟩
      have hle := le_stop (a + f.size) pre
      rw [stop_cons] at hx
      simp only [minBlock] at hf
      rw [List.cons_append, replaceAt, if_neg (by omega), ih hpre hx, List.cons_append]

theorem covering?_split (hx : stop a pre = x) (hxy : x ≤ y) (hy : y < x + e.size) :
    covering? y a (pre ++ e :: post) = some (x, e.size) := by
  induction pre generalizing a with
  | nil =>
      cases hx
      exact if_pos ⟨hxy, hy⟩
  | cons f pre ih =>
      have hle := le_stop (a + f.size) pre
      rw [stop_cons] at hx
      rw [List.cons_append, covering?, if_neg (by omega), ih hx]

/-! ## Joining neighbours -/

theorem join_of_allocated (h : e.allocated = true) : join e es = e :: es := by
  cases es with
  | nil => rfl
  | cons f es => exact if_neg fun hc => Bool.noConfusion (h.symm.trans hc.1)

theorem join_free (n c : Nat) (es : List Extent) :
    join ⟨n, false⟩ (⟨c, false⟩ :: es) = ⟨n + c, false⟩ :: es := by
  rw [join, if_pos ⟨rfl, rfl⟩]

theorem join_of_tidy (h : Tidy (!e.allocated) es) : join e es = e :: es := by
  cases es with
  | nil => rfl
  | cons f es =>
      refine if_neg fun hc => ?_
      have hfree := h.1 hc.2
      rw [hc.1] at hfree
      cases hfree

/-- Nothing is joined where no two neighbours are free. -/
theorem merge_of_tidy (h : Tidy p es) : merge es = es := by
  induction es generalizing p with
  | nil => rfl
  | cons e es ih =>
      show join e (merge es) = e :: es
      rw [ih h.2, join_of_tidy h.2]

/-- After an extent in use, joining begins anew. -/
theorem merge_append (h : Tidy p es) (hlast : lastFree p es = false) :
    merge (es ++ fs) = es ++ merge fs := by
  induction es generalizing p with
  | nil => rfl
  | cons e es ih =>
      show join e (merge (es ++ fs)) = e :: (es ++ merge fs)
      rw [ih h.2 hlast]
      rcases e with ⟨n, _ | _⟩
      · -- the next extent is in use, so a free one stays apart from it
        cases es with
        | nil => cases hlast
        | cons f es => exact if_neg fun hc => Bool.noConfusion (h.2.allocated.symm.trans hc.2)
      · exact join_of_allocated rfl

/-- A free extent takes in the gaps on either side. -/
theorem merge_gaps (hpost : Tidy true post) :
    merge (gap b ++ ⟨n, false⟩ :: (gap c ++ post)) = ⟨b + n + c, false⟩ :: post := by
  have hbehind : merge (⟨n, false⟩ :: (gap c ++ post)) = ⟨n + c, false⟩ :: post := by
    by_cases hc : c = 0
    · rw [hc, gap_zero, List.nil_append, Nat.add_zero]
      exact merge_of_tidy (p := false) ⟨fun _ => rfl, hpost⟩
    · have hgap : merge (⟨c, false⟩ :: post) = ⟨c, false⟩ :: post :=
        merge_of_tidy (p := false) ⟨fun _ => rfl, hpost⟩
      rw [gap_of_ne hc, List.singleton_append]
      show join ⟨n, false⟩ (merge (⟨c, false⟩ :: post)) = _
      rw [hgap, join_free]
  by_cases hb : b = 0
  · rw [hb, gap_zero, List.nil_append, hbehind, Nat.zero_add]
  · rw [gap_of_ne hb, List.singleton_append]
    show join ⟨b, false⟩ (merge (⟨n, false⟩ :: (gap c ++ post))) = _
    rw [hbehind, join_free, Nat.add_assoc]

theorem merge_between (hpre : Tidy false pre) (hlast : lastFree false pre = false)
    (hpost : Tidy true post) :
    merge (pre ++ gap b ++ ⟨n, false⟩ :: (gap c ++ post)) = pre ++ ⟨b + n + c, false⟩ :: post := by
  rw [List.append_assoc, merge_append hpre hlast, merge_gaps hpost]

end Extent

namespace Plan

open Extent

variable {p : Plan} {lo x n m b f need : Nat} {e : Extent} {pre post : List Extent}

/-! ## Steps -/

theorem sizeAt_of_mem (hl : Large p.extents) (h : (x, e) ∈ located p.start p.extents) :
    p.sizeAt x = e.size := by
  rw [sizeAt, Plan.find?, find?_of_mem hl h]
  rfl

variable (lists : Nat → List Nat)

theorem sizeAt_split (hl : Large (pre ++ e :: post)) (hx : stop (lo + frameSize) pre = x) :
    (⟨lo, pre ++ e :: post, lists⟩ : Plan).sizeAt x = e.size :=
  sizeAt_of_mem hl (hx ▸ mem_located_split _ _ _ _)

theorem place_split (hl : Large (pre ++ ⟨n, false⟩ :: post)) (hx : stop (lo + frameSize) pre = x)
    (hleft : minBlock ≤ n - need) :
    (⟨lo, pre ++ ⟨n, false⟩ :: post, lists⟩ : Plan).place x need
      = (⟨lo, pre ++ [⟨need, true⟩, ⟨n - need, false⟩] ++ post,
          push (drop lists x (x + 1)) (x + need) (n - need)⟩, [.split x need (n - need)]) := by
  rw [place, sizeAt_split lists hl hx]
  simp only
  rw [if_pos hleft, start, replaceAt_split (Large.append.1 hl).1 hx, List.append_assoc]

theorem place_whole (hl : Large (pre ++ ⟨n, false⟩ :: post)) (hx : stop (lo + frameSize) pre = x)
    (hleft : ¬minBlock ≤ n - need) :
    (⟨lo, pre ++ ⟨n, false⟩ :: post, lists⟩ : Plan).place x need
      = (⟨lo, pre ++ [⟨n, true⟩] ++ post, drop lists x (x + 1)⟩, []) := by
  rw [place, sizeAt_split lists hl hx]
  simp only
  rw [if_neg hleft, start, replaceAt_split (Large.append.1 hl).1 hx, List.append_assoc]

/-- The block that has become free joins the gaps on either side. -/
theorem settle_between (p : Plan) (hx : stop (p.lo + frameSize) pre = x) (hm : b + n + f = m)
    (hn : 0 < n)
    (hpre : Tidy false pre) (hlast : lastFree false pre = false) (hpost : Tidy true post) :
    p.settle (pre ++ gap b ++ ⟨n, false⟩ :: (gap f ++ post)) (x + b) n
      = (⟨p.lo, pre ++ ⟨m, false⟩ :: post, push (drop p.lists x (x + m)) x m⟩, x,
          if f = 0 ∧ b = 0 then [] else [.coalesce x m]) := by
  have hcover : covering? (x + b) (p.lo + frameSize) (pre ++ ⟨m, false⟩ :: post) = some (x, m) :=
    covering?_split hx (by omega) (by simp only; omega)
  have halone : m = n ↔ f = 0 ∧ b = 0 := by omega
  rw [settle, start, merge_between hpre hlast hpost, hm, hcover]
  simp only [halone]

theorem free_between (lo : Nat) (hl : Large (pre ++ gap b ++ ⟨n, true⟩ :: (gap f ++ post)))
    (hx : stop (lo + frameSize) pre = x) (hm : b + n + f = m) (hpre : Tidy false pre)
    (hlast : lastFree false pre = false) (hpost : Tidy true post) :
    (⟨lo, pre ++ gap b ++ ⟨n, true⟩ :: (gap f ++ post), lists⟩ : Plan).free (x + b)
      = (⟨lo, pre ++ ⟨m, false⟩ :: post, push (drop lists x (x + m)) x m⟩,
          if f = 0 ∧ b = 0 then [] else [.coalesce x m]) := by
  have hstop : stop (lo + frameSize) (pre ++ gap b) = x + b := by rw [stop_append, hx, stop_gap]
  rcases Large.append.1 hl with ⟨hbefore, hafter⟩
  have hn : 16 ≤ n := (Large.cons.1 hafter).1
  rw [free, sizeAt_split lists hl hstop]
  simp only
  rw [start, replaceAt_split hbefore hstop, List.singleton_append,
    settle_between ⟨lo, _, lists⟩ hx hm (by omega) hpre hlast hpost]

/-- The block that was freed is a part of a free one. -/
theorem exists_free {p : Plan} {a : Nat} (hl : Large p.extents) (ht : Tidy false p.extents)
    (ha : (a, ⟨n, true⟩) ∈ located p.start p.extents) :
    ∃ y k, (y, ⟨k, false⟩) ∈ located p.start (p.free a).1.extents ∧ y ≤ a ∧ a + n ≤ y + k := by
  rcases p with ⟨lo, es, lists⟩
  rcases ht.exists_around hl ha with ⟨pre, b, f, post, hes, hx, hpre, hpost⟩
  obtain rfl : es = pre ++ gap b ++ ⟨n, true⟩ :: (gap f ++ post) := hes
  have hbefore := (Tidy.append.1 (Tidy.append.1 ht).1).1
  have hfree := free_between lists lo hl rfl rfl hbefore hpre hpost
  have hx : stop (lo + frameSize) pre + b = a := hx
  rw [hx] at hfree
  rw [hfree]
  exact ⟨_, b + n + f, mem_located_split _ _ _ _, by omega, by omega⟩

/-- The other blocks in use are the same ones as before. -/
theorem inUse_free {p : Plan} {a : Nat} (hl : Large p.extents) (ht : Tidy false p.extents)
    (ha : (a, ⟨n, true⟩) ∈ located p.start p.extents) :
    (inUse p.start p.extents).Perm ((a, n) :: inUse p.start (p.free a).1.extents) := by
  rcases p with ⟨lo, es, lists⟩
  rcases ht.exists_around hl ha with ⟨pre, b, f, post, hes, hx, hpre, hpost⟩
  obtain rfl : es = pre ++ gap b ++ ⟨n, true⟩ :: (gap f ++ post) := hes
  have hbefore := (Tidy.append.1 (Tidy.append.1 ht).1).1
  have hfree := free_between lists lo hl rfl rfl hbefore hpre hpost
  have hx : stop (lo + frameSize) pre + b = a := hx
  rw [hx] at hfree
  -- the blocks in use after the gap begin where they did before
  have hend : a + n + f = stop (lo + frameSize) pre + (b + n + f) := by omega
  rw [hfree, start, inUse_append, inUse_append, inUse_append, inUse, inUse, inUse_append, inUse_gap,
    inUse_gap, stop_append, stop_gap, stop_gap, hx, if_pos rfl, if_neg Bool.false_ne_true, hend,
    List.append_nil, List.nil_append]
  exact List.perm_middle

/-- Nothing comes after the new block at the top, and a gap may come before it. -/
theorem grow_between (hx : stop (lo + frameSize) pre = x) (hn : 0 < n) (hpre : Tidy false pre)
    (hlast : lastFree false pre = false) :
    (⟨lo, pre ++ gap b, lists⟩ : Plan).grow n
      = (⟨lo, pre ++ [⟨b + n, false⟩], push (drop lists x (x + (b + n))) x (b + n)⟩, x,
          .grow (x + b) n :: if b = 0 then [] else [.coalesce x (b + n)]) := by
  have htop : (⟨lo, pre ++ gap b, lists⟩ : Plan).top = x + b := by
    rw [top, start, stop_append, hx, stop_gap]
  have hes : pre ++ gap b ++ [⟨n, false⟩] = pre ++ gap b ++ ⟨n, false⟩ :: (gap 0 ++ []) := rfl
  have hnil : Tidy true [] := trivial
  rw [grow, htop]
  simp only
  rw [hes, settle_between ⟨lo, _, lists⟩ hx (Nat.add_zero (b + n)) hn hpre hlast hnil]
  simp only [true_and]

/-- The first block of a heap. -/
theorem grow_fresh (hn : 0 < n) :
    (⟨lo, [], fun _ => []⟩ : Plan).grow n
      = (fresh lo n, lo + frameSize, [.grow (lo + frameSize) n]) := by
  have hes : (⟨lo, [], fun _ => []⟩ : Plan) = ⟨lo, [] ++ gap 0, fun _ => []⟩ := rfl
  have hlists : drop (fun _ => []) (lo + frameSize) (lo + frameSize + n) = fun _ => [] := rfl
  have hnil : Tidy false [] := trivial
  rw [hes, grow_between _ rfl hn hnil rfl, Nat.zero_add, stop_nil, hlists]
  rfl

end Plan

end BoundaryTag
