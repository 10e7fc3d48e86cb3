import BoundaryTag.Proofs.MergeEnd

/-!
# BlockMerging — blocks that become free

What `merge` and `release` do to a region that is drawn.

* `FreeLists.merge_steps`: the steps of a merge, one after the other.
* `FreeLists.merge_eq`: a merge comes through when all its steps do.
* `Drawn.absorb_gaps`: the gaps on either side of a free block leave their lists.
* `Drawn.merge`: a free block that is in no list joins the gaps on either side.
* `Settled.release`: a block in use becomes free and joins them.
-/

namespace BoundaryTag

open Extent

namespace Extent

variable {lo i : Nat} {es mid post : List Extent}

/-- A foreign byte is well below a free block, or in a payload above it. -/
theorem Foreign.beside {x n : Nat} {pre : List Extent}
    (h : Foreign lo (pre ++ ⟨n, false⟩ :: post) i) (hx : stop (lo + frameSize) pre = x) :
    i + 4 < x ∨ IsPayload (x + n) post i := by
  have hlo : lo + 128 ≤ x := hx ▸ le_stop (lo + frameSize) pre
  rcases h with h | h
  · exact .inl (by omega)
  · rcases IsPayload.append.1 h with h | h
    · exact .inl (hx ▸ h.bounds.2)
    · rcases h with ⟨y, k, hy, hi⟩
      rw [hx] at hy
      exact .inr ⟨y, k, hy, hi⟩

end Extent

/-- The block just before the block at `bp`, if its tag `t` says that it is free. -/
def Region.beforeOf (r : Region) (bp : Nat) (t : Tag) : Except Fault (Option Nat) :=
  if t.prevFree then some <$> r.previous bp else pure none

namespace FreeLists

/-- Take the block at `side` out of its list and count its size, if there is one. -/
def absorbSide (l : FreeLists) (x : Region × Nat) : Option Nat → Except Fault (Region × Nat)
  | none => pure x
  | some a => l.absorb x.1 x.2 a

/-- A merge finds both neighbours, takes those that are free out of their lists, and finishes the
block. -/
theorem merge_steps (l : FreeLists) (r : Region) (bp : Nat) :
    l.merge r bp = (do
      let t ← r.header bp
      let after ← r.next bp
      let afterTag ← r.header after
      let before ← r.beforeOf bp t
      let x ← l.absorbSide (r, t.size) (if afterTag.allocated then none else some after)
      let x ← l.absorbSide x before
      l.finish x.1 (before.getD bp) x.2
        (if afterTag.allocated ∧ before = none then [] else [.coalesce (before.getD bp) x.2])) := by
  refine bind_congr fun t => bind_congr fun after => bind_congr fun afterTag => ?_
  cases hp : t.prevFree <;> cases ha : afterTag.allocated
  all_goals
    simp only [Region.beforeOf, hp, absorbSide, finish, Bool.false_eq_true, if_false, if_true,
      pure_bind, map_eq_pure_bind, bind_assoc, Option.getD_none, Option.getD_some, reduceCtorEq,
      and_self, and_true, true_and]

/-- The block at `side` was taken out of its list and its size counted, if there is one. -/
def Absorbs (l : FreeLists) (r : Region) (size : Nat) : Option Nat → Region → Nat → Prop
  | none, s, total => s = r ∧ total = size
  | some a, s, total => l.absorb r size a = .ok (s, total)

theorem Absorbs.side_eq {l : FreeLists} {r s : Region} {size total : Nat} {side : Option Nat}
    (h : l.Absorbs r size side s total) : l.absorbSide (r, size) side = .ok (s, total) := by
  cases side with
  | none =>
      rcases h with ⟨rfl, rfl⟩
      rfl
  | some a => exact h

/-- A merge comes to its last steps when it finds the neighbours and both leave their lists. -/
theorem merge_eq {l : FreeLists} {r s₁ s₂ : Region} {bp a n₁ n₂ : Nat} {t ta : Tag}
    {before : Option Nat} (hhead : r.header bp = .ok t) (hnext : r.next bp = .ok a)
    (hafter : r.header a = .ok ta)
    (hbefore : if t.prevFree then ∃ b, r.previous bp = .ok b ∧ before = some b else before = none)
    (hfront : l.Absorbs r t.size (if ta.allocated then none else some a) s₁ n₁)
    (hback : l.Absorbs s₁ n₁ before s₂ n₂) :
    l.merge r bp = l.finish s₂ (before.getD bp) n₂
      (if ta.allocated ∧ before = none then [] else [.coalesce (before.getD bp) n₂]) := by
  have hbefore' : r.beforeOf bp t = .ok before := by
    unfold Region.beforeOf
    split at hbefore
    case isTrue hp =>
      rcases hbefore with ⟨b, hb, rfl⟩
      rw [if_pos hp, hb, Fault.map_ok]
    case isFalse hp =>
      subst hbefore
      exact if_neg hp
  rw [merge_steps, hhead, Fault.ok_bind, hnext, Fault.ok_bind, hafter, Fault.ok_bind, hbefore',
    Fault.ok_bind, hfront.side_eq, Fault.ok_bind, hback.side_eq, Fault.ok_bind]

/-- A block that its header calls free leaves its list, and the size in its header is counted. -/
theorem absorb_eq {l : FreeLists} {r s : Region} {bp size : Nat} (h4 : 4 ≤ bp) (h : bp ≤ r.size)
    (hfree : (r.tagAt bp).allocated = false)
    (hsum : size + (r.tagAt bp).size < 0x10000000000000000) (hs : l.remove r bp = .ok s) :
    l.absorb r size bp = .ok (s, size + (r.tagAt bp).size) := by
  rw [absorb, Region.header_eq h4 h, Fault.ok_bind, Fault.require_eq _ hfree, Fault.ok_bind,
    Address.add_eq hsum, Fault.ok_bind, hs, Fault.ok_bind, Fault.pure_eq_ok]

end FreeLists

namespace Region

variable {r s : Region} {lo x y n m : Nat} {es pre mid post : List Extent}
  {lists : Nat → List Nat} {u v b f g z : Nat} {p : Bool}

/-- A free block leaves its list, and its size is counted. -/
theorem Drawn.absorb {size : Nat} (h : r.Drawn lo es lists)
    (hl : Listed (lo + frameSize) es lists u v)
    (hx : (x, ⟨n, false⟩) ∈ Extent.located (lo + frameSize) es) (hskip : ¬(u ≤ x ∧ x < v))
    (hsum : size + n < 0x10000000000000000) :
    ∃ s, (FreeLists.at lo).absorb r size x = .ok (s, size + n) ∧ s.size = r.size
      ∧ s.Drawn lo es (Plan.drop lists x (x + 1))
      ∧ ∀ i, ¬(FreeLists.at lo).Touches (Plan.drop lists x (x + 1)) i → s.byte i = r.byte i := by
  rcases h.tagsAt hx with ⟨q, ht⟩
  have hmem : x ∈ lists (SizeClass.of n) := (hl _ x).2 ⟨hskip, n, hx, rfl⟩
  rcases h.remove hl hmem with ⟨s, hs, hrest⟩
  have hb := h.located hx
  simp only [frameSize] at hb
  have hsize : (r.tagAt x).size = n := ht.size
  refine ⟨s, ?_, hrest⟩
  rw [FreeLists.absorb_eq (by omega) (by omega) ht.allocated (by omega) hs, hsize]

/-! ## Gaps on either side -/

/-- The block after a gap is in use, and the epilogue is as well. -/
theorem Chained.allocated_gap (h : r.Chained y p (gap f ++ post)) (hpost : Tidy true post) :
    (r.tagAt y).allocated = decide (f = 0) := by
  by_cases hf : f = 0
  · subst hf
    exact h.allocated hpost
  · rw [gap_of_ne hf] at h
    rw [h.tagged.1.allocated, decide_eq_false hf]

/-- A gap is found through its footer. -/
theorem Drawn.previous_gap (h : r.Drawn lo (pre ++ gap b ++ mid) lists)
    (hx : stop (lo + frameSize) pre = x) (hpre : lastFree false pre = false) :
    if (r.tagAt (x + b)).prevFree then
      ∃ a, r.previous (x + b) = .ok a ∧ (if b = 0 then none else some x) = some a
    else (if b = 0 then none else some x) = none := by
  have hlo : lo + 128 ≤ x := hx ▸ le_stop (lo + frameSize) pre
  rcases Chained.append.1 h.chained with ⟨htags, hchain⟩
  rw [stop_append, hx, stop_gap] at hchain
  rw [hchain.prevFree, lastFree_append, hpre]
  by_cases hb : b = 0
  · subst hb
    rw [gap_zero, lastFree, if_neg Bool.false_ne_true, if_pos rfl]
  · rw [gap_of_ne hb] at htags ⊢
    have htag := (Tagged.append.1 htags).2.1
    rw [hx] at htag
    have hb16 : 16 ≤ b := htag.large
    -- the footer is a copy of the header
    have hfoot : (Tag.mk (r.word (x + b - 8))).size = b := by
      rw [htag.footer rfl]
      exact htag.size
    have hprev : (r.tagAt (x + b)).prevFree = true := by
      rw [hchain.prevFree, lastFree_append, gap_of_ne hb]
      rfl
    have hle := hchain.le_size
    rw [if_pos (show lastFree false [⟨b, false⟩] = true from rfl), if_neg hb]
    refine ⟨x, ?_, rfl⟩
    rw [previous_eq (by omega) hle hprev (by omega), hfoot]
    congr 1
    omega

/-- A gap beside blocks that are in no list leaves its list. -/
theorem Drawn.absorb_gap (u' v' size : Nat) (h : r.Drawn lo es lists)
    (hl : Listed (lo + frameSize) es lists u v)
    (hz : g ≠ 0 → (z, ⟨g, false⟩) ∈ Extent.located (lo + frameSize) es ∧ ¬(u ≤ z ∧ z < v))
    (hskip : ∀ y m, (y, ⟨m, false⟩) ∈ Extent.located (lo + frameSize) es →
      ((u' ≤ y ∧ y < v') ↔ (u ≤ y ∧ y < v) ∨ (g ≠ 0 ∧ y = z)))
    (hsum : size + g < 0x10000000000000000) :
    ∃ s, (FreeLists.at lo).Absorbs r size (if g = 0 then none else some z) s (size + g)
      ∧ s.size = r.size ∧ s.Drawn lo es (Plan.drop lists u' v')
      ∧ Listed (lo + frameSize) es (Plan.drop lists u' v') u' v'
      ∧ ∀ i, ¬(FreeLists.at lo).Touches (Plan.drop lists u' v') i → s.byte i = r.byte i := by
  by_cases hg : g = 0
  · -- without a gap no list has a block there
    subst hg
    have hdrop : Plan.drop lists u' v' = lists := by
      funext k
      refine FreeLists.drop_eq_self fun y hy hyu => ?_
      rcases hl.located hy with ⟨m, hm, -, hyu'⟩
      rcases (hskip y m hm).1 hyu with hc | hc
      · exact hyu' hc
      · exact hc.1 rfl
    rw [hdrop]
    refine ⟨r, ⟨rfl, rfl⟩, rfl, h, hl.skip fun y m hm => (hskip y m hm).trans ?_, fun i _ => rfl⟩
    exact ⟨fun hc => hc.resolve_right fun hc => hc.1 rfl, .inl⟩
  · rcases hz hg with ⟨hmem, hzu⟩
    have hdrop : Plan.drop lists z (z + 1) = Plan.drop lists u' v' := by
      funext k
      refine List.filter_congr fun y hy => decide_eq_decide.2 (not_congr ?_)
      rcases hl.located hy with ⟨m, hm, -, hyu⟩
      have hc := hskip y m hm
      constructor
      · intro hyz
        exact hc.2 (.inr ⟨hg, by omega⟩)
      · intro hyu'
        have := (hc.1 hyu').resolve_left hyu
        omega
    rcases h.absorb hl hmem hzu hsum with ⟨s, hs, hsize, hdrawn, hbyte⟩
    rw [hdrop] at hdrawn hbyte
    refine ⟨s, ?_, hsize, hdrawn, ?_, hbyte⟩
    · rw [if_neg hg]
      exact hs
    · rw [← hdrop]
      exact hl.drop fun y m hm => (hskip y m hm).trans (or_congr_right (and_iff_right hg))

/-- The gaps on either side of a free block that is in no list leave theirs. -/
theorem Drawn.absorb_gaps (h : r.Drawn lo (pre ++ gap b ++ ⟨n, false⟩ :: (gap f ++ post)) lists)
    (hl : Listed (lo + frameSize) (pre ++ gap b ++ ⟨n, false⟩ :: (gap f ++ post)) lists (x + b)
      (x + b + n)) (hx : stop (lo + frameSize) pre = x) (hm : b + n + f = m)
    (hend : x + m ≤ r.size) :
    ∃ s₁ s₂, (FreeLists.at lo).Absorbs r n (if f = 0 then none else some (x + b + n)) s₁ (n + f)
      ∧ (FreeLists.at lo).Absorbs s₁ (n + f) (if b = 0 then none else some x) s₂ m
      ∧ s₂.size = r.size
      ∧ s₂.Drawn lo (pre ++ (gap b ++ ⟨n, false⟩ :: gap f) ++ post) (Plan.drop lists x (x + m))
      ∧ Listed (lo + frameSize) (pre ++ (gap b ++ ⟨n, false⟩ :: gap f) ++ post)
          (Plan.drop lists x (x + m)) x (x + m)
      ∧ r.KeepsPlain s₂ lo
      ∧ ∀ i, Kept lo (pre ++ ⟨m, false⟩ :: post) i → s₂.byte i = r.byte i := by
  have hr := r.size_lt
  have hn : 16 ≤ n := h.large.size (mem_located_between hx)
  -- only the gaps can be in lists here
  have honly : ∀ y k, (y, ⟨k, false⟩) ∈ Extent.located (lo + frameSize)
      (pre ++ gap b ++ ⟨n, false⟩ :: (gap f ++ post)) → x ≤ y → y < x + m →
      (b ≠ 0 ∧ y = x) ∨ y = x + b ∨ (f ≠ 0 ∧ y = x + b + n) := by
    intro y k hy hxy hyx
    exact (located_between h.large hx hy hxy (by simp only; omega)).imp_right (.imp_left And.left)
  have hbehind : f ≠ 0 → (x + b + n, ⟨f, false⟩) ∈ Extent.located (lo + frameSize)
      (pre ++ gap b ++ ⟨n, false⟩ :: (gap f ++ post)) := mem_located_behind hx
  rcases h.absorb_gap (x + b) (x + m) n hl
    (fun hf => ⟨hbehind hf, by omega⟩) (fun y k hy => by have := honly y k hy; omega)
    (by omega) with
    ⟨s₁, hfront, hsize₁, h₁, hl₁, hbyte₁⟩
  rcases h₁.absorb_gap x (x + m) (n + f) hl₁
    (fun hb => ⟨mem_located_before hx hb, by omega⟩) (fun y k hy => by have := honly y k hy; omega)
    (by omega) with
    ⟨s₂, hback, hsize₂, h₂, hl₂, hbyte₂⟩
  rw [FreeLists.drop_drop (by omega) (Nat.le_refl _)] at h₂ hl₂ hbyte₂
  have hplain : r.KeepsPlain s₂ lo :=
    (h₁.keepsPlain hl₁.freeOnly hbyte₁).trans (h₂.keepsPlain hl₂.freeOnly hbyte₂)
  have hes : pre ++ gap b ++ ⟨n, false⟩ :: (gap f ++ post)
      = pre ++ (gap b ++ ⟨n, false⟩ :: gap f) ++ post := by simp
  have hmid : stop x (gap b ++ ⟨n, false⟩ :: gap f) = x + m := by rw [stop_between, ← hm]
  have hsum : n + f + b = m := by omega
  -- the links that change are links of the result as well
  have hfree₁ : FreeOnly (lo + frameSize) (pre ++ ⟨m, false⟩ :: post)
      (Plan.drop lists (x + b) (x + m)) := by
    have hlmid := (Large.append.1 (Large.append.1 (hes ▸ h.large)).1).2
    refine (hes ▸ hl₁).freeOnly_join hx hmid hlmid fun k y hy hxy hyx => ?_
    rcases hl₁.located hy with ⟨c, hc, -, hout⟩
    have := honly y c hc hxy hyx
    omega
  have hfree₂ : FreeOnly (lo + frameSize) (pre ++ ⟨m, false⟩ :: post)
      (Plan.drop lists x (x + m)) := by
    rw [← FreeLists.drop_drop (i := x + b) (m := x + m) (by omega) (Nat.le_refl _)]
    exact hfree₁.drop
  refine ⟨s₁, s₂, hfront, hsum ▸ hback, by rw [hsize₂, hsize₁], hes ▸ h₂, hes ▸ hl₂, hplain,
    fun i hi => ?_⟩
  rw [hbyte₂ i (hi.not_touches hfree₂), hbyte₁ i (hi.not_touches hfree₁)]

/-- A free block that is in no list joins the gaps on either side, and the result is listed. -/
theorem Drawn.merge (h : r.Drawn lo (pre ++ gap b ++ ⟨n, false⟩ :: (gap f ++ post)) lists)
    (hl : Listed (lo + frameSize) (pre ++ gap b ++ ⟨n, false⟩ :: (gap f ++ post)) lists (x + b)
      (x + b + n)) (hx : stop (lo + frameSize) pre = x) (hm : b + n + f = m)
    (htidy : Tidy false pre) (hpre : lastFree false pre = false) (hpost : Tidy true post) :
    ∃ s, (FreeLists.at lo).merge r (x + b)
        = .ok (s, x, if f = 0 ∧ b = 0 then [] else [.coalesce x m])
      ∧ s.size = r.size
      ∧ s.Settled lo (pre ++ ⟨m, false⟩ :: post) (Plan.push (Plan.drop lists x (x + m)) x m)
      ∧ r.KeepsPlain s lo
      ∧ ∀ i, Kept lo (pre ++ ⟨m, false⟩ :: post) i → s.byte i = r.byte i := by
  have hlo : lo + 128 ≤ x := hx ▸ le_stop (lo + frameSize) pre
  have hstop : stop (lo + frameSize) (pre ++ gap b) = x + b := by rw [stop_append, hx, stop_gap]
  have hchain := (Chained.append.1 h.chained).2
  rw [hstop] at hchain
  have htag := hchain.tagged.1
  have hn : 16 ≤ n := htag.large
  have hafter : r.Chained (x + b + n) true (gap f ++ post) := hchain.tail
  have hend : x + m ≤ r.size := by
    have hle := le_stop (x + b + n + f) post
    rw [← hafter.stop_eq, stop_append, stop_gap]
    omega
  have hmid : stop x (gap b ++ ⟨n, false⟩ :: gap f) = x + m := by rw [stop_between, ← hm]
  have hlast : lastFree false (gap b ++ ⟨n, false⟩ :: gap f) = true := by
    rw [lastFree_append, lastFree]
    unfold gap
    split <;> rfl
  rcases h.absorb_gaps hl hx hm hend with ⟨s₁, s₂, hfront, hback, hsize, h₂, hl₂, hplain, hbyte⟩
  rcases h₂.fuse hl₂ hx hmid (by omega) htidy hpre hlast hpost with
    ⟨s₃, hfinish, hsize', hsettled, hplain', hbyte'⟩
  -- the result begins where the gap before the block did, if there is one
  have hblock : (if b = 0 then none else some x).getD (x + b) = x := by
    split
    case isTrue hb => rw [hb]; rfl
    case isFalse => rfl
  have hsize : (r.tagAt (x + b)).size = n := htag.size
  have hmerge := FreeLists.merge_eq (header_eq (by omega) (by omega))
    (by rw [next_eq (by omega) (by omega), hsize]) (header_eq (by omega) hafter.le_size)
    (Drawn.previous_gap h hx hpre) (by rw [hsize, hafter.allocated_gap hpost]; simpa using hfront)
    hback
  rw [hblock, hafter.allocated_gap hpost, hfinish] at hmerge
  refine ⟨s₃, ?_, by omega, hsettled, hplain.trans hplain',
    fun i hi => by rw [hbyte' i hi, hbyte i hi]⟩
  rw [hmerge]
  simp

/-! ## Freeing -/

/-- A block in use becomes a free block that is in no list. -/
theorem Settled.open_block (h : r.Settled lo (pre ++ ⟨n, true⟩ :: post) lists)
    (hx : stop (lo + frameSize) pre = x) :
    ∃ s₁ s₂, r.header x = .ok (r.tagAt x) ∧ (r.tagAt x).size = n
      ∧ r.writeFree x n (r.tagAt x).prevFree = .ok s₁
      ∧ s₁.notePrevFree x true = .ok s₂ ∧ s₂.size = r.size
      ∧ s₂.Drawn lo (pre ++ [⟨n, false⟩] ++ post) lists
      ∧ Listed (lo + frameSize) (pre ++ [⟨n, false⟩] ++ post) lists x (x + n) ∧ r.KeepsPlain s₂ lo
      ∧ ∀ i, ¬(x ≤ i + 4 ∧ i < x) → ¬(x + n ≤ i + 8 ∧ i < x + n) → ¬IsTag (x + n) post i →
          s₂.byte i = r.byte i := by
  have hes : pre ++ [⟨n, true⟩] ++ post = pre ++ ⟨n, true⟩ :: post := by simp
  have hmem : (x, ⟨n, true⟩) ∈ Extent.located (lo + frameSize) (pre ++ ⟨n, true⟩ :: post) :=
    hx ▸ mem_located_split _ _ _ _
  have hb := h.drawn.located hmem
  simp only at hb
  have hlo : lo + 128 ≤ x := hb.1
  have hspan := h.drawn.span
  have htag := (Tagged.append.1 h.drawn.chained.tagged).2.1
  rw [hx] at htag
  have hfree : (r.setFree x n (lastFree false pre)).TagsAt x (lastFree false pre) ⟨n, false⟩ :=
    tagsAt_setFree (by omega) htag.large htag.size_mod htag.size_lt (by omega)
  -- a block in use is in no list, so nothing has to leave one
  have hl : Listed (lo + frameSize) (pre ++ [⟨n, true⟩] ++ post) lists x (x + n) := by
    rw [hes]
    refine h.listed.skip fun y k hy => ⟨fun hxy => ?_, fun hxy => by omega⟩
    have := (located_inside h.large hmem hy hxy.1 hxy.2).2
    cases this
  have hmid : (r.setFree x n (lastFree false pre)).Tagged x (lastFree false pre) [⟨n, false⟩] :=
    ⟨hfree, trivial⟩
  have h' : r.Drawn lo (pre ++ [⟨n, true⟩] ++ post) lists := hes.symm ▸ h.drawn
  have hn : 16 ≤ n := htag.large
  rcases h'.exchange (p := true) hl hx rfl rfl (size_setFree _) hmid
    (fun i hi => byte_setFree (by omega) (by omega)) rfl with ⟨hdrawn, hl', hnote, hkeep⟩
  refine ⟨_, _, header_eq (by omega) (by omega), htag.size, ?_,
    hnote x (by omega) (by rw [hfree.size]), ?_, hdrawn, hl', ?_, fun i hi hi' ht => ?_⟩
  · rw [htag.prevFree]
    exact writeFree_eq (by omega) htag.size_mod (by omega) htag.size_lt (by omega)
  · rw [size_setPrevFree, size_setFree]
  · exact (keepsPlain_setFree hb.1 hb.2.2.1 hn htag.size_mod htag.size_lt (by omega)).trans
      (keepsPlain_setPrevFree (by simp only [frameSize]; omega) (by omega)
        (by rw [size_setFree]; omega))
  · rw [hkeep i (by omega) ht, byte_setFree (by omega) (by omega)]

/-- A block in use becomes free and joins the gaps on either side. Halfway it is a free block that
is in no list, and what is inside of the result stays as it is then. -/
theorem Settled.release_steps
    (h : r.Settled lo (pre ++ gap b ++ ⟨n, true⟩ :: (gap f ++ post)) lists)
    (hx : stop (lo + frameSize) pre = x) (hm : b + n + f = m) (hpre : lastFree false pre = false)
    (hpost : Tidy true post) :
    ∃ s t : Region, (FreeLists.at lo).release r (x + b)
        = .ok (t, if f = 0 ∧ b = 0 then [] else [.coalesce x m])
      ∧ s.Drawn lo (pre ++ gap b ++ ⟨n, false⟩ :: (gap f ++ post)) lists
      ∧ (∀ i, Foreign lo (pre ++ ⟨m, false⟩ :: post) i → s.byte i = r.byte i)
      ∧ t.size = r.size
      ∧ t.Settled lo (pre ++ ⟨m, false⟩ :: post) (Plan.push (Plan.drop lists x (x + m)) x m)
      ∧ r.KeepsPlain t lo
      ∧ ∀ i, Kept lo (pre ++ ⟨m, false⟩ :: post) i → t.byte i = s.byte i := by
  have hstop : stop (lo + frameSize) (pre ++ gap b) = x + b := by rw [stop_append, hx, stop_gap]
  rcases h.open_block hstop with
    ⟨s₁, s₂, hhead, hsize, hwrite, hnote, hsize₂, h₂, hl₂, hplain₂, hbyte₂⟩
  have hes : pre ++ gap b ++ [⟨n, false⟩] ++ (gap f ++ post)
      = pre ++ gap b ++ ⟨n, false⟩ :: (gap f ++ post) := by simp
  rw [hes] at h₂ hl₂
  have htidy := (Tidy.append.1 (Tidy.append.1 h.tidy).1).1
  rcases h₂.merge hl₂ hx hm htidy hpre hpost with
    ⟨s₃, hmerge, hsize₃, hsettled, hplain₃, hbyte₃⟩
  refine ⟨s₂, s₃, ?_, h₂, fun i hi => ?_, by omega, hsettled, hplain₂.trans hplain₃, hbyte₃⟩
  · rw [FreeLists.release, hhead, Fault.ok_bind, hsize, hwrite, Fault.ok_bind, hnote, Fault.ok_bind,
      hmerge, Fault.ok_bind]
    rfl
  · rcases Large.cons.1 (Large.append.1 h₂.large).2 with ⟨hn, hlarge⟩
    simp only [minBlock] at hn
    -- tags are written beside payloads, never in them
    rcases hi.beside hx with hi | hi
    · refine hbyte₂ i (by omega) (by omega) fun ht => ?_
      have := (ht.bounds hlarge).1
      omega
    · have hb := hi.bounds
      refine hbyte₂ i (by omega) (by omega) fun ht => ?_
      rcases IsTag.append.1 ht with ht | ht
      · have := (ht.bounds (Large.append.1 hlarge).1).2
        rw [stop_gap] at this
        omega
      · rw [stop_gap, show x + b + n + f = x + m by omega] at ht
        exact not_isPayload_of_isTag (Large.append.1 hlarge).2 ht hi

theorem Settled.release (h : r.Settled lo (pre ++ gap b ++ ⟨n, true⟩ :: (gap f ++ post)) lists)
    (hx : stop (lo + frameSize) pre = x) (hm : b + n + f = m) (hpre : lastFree false pre = false)
    (hpost : Tidy true post) :
    ∃ s, (FreeLists.at lo).release r (x + b)
        = .ok (s, if f = 0 ∧ b = 0 then [] else [.coalesce x m])
      ∧ s.size = r.size
      ∧ s.Settled lo (pre ++ ⟨m, false⟩ :: post) (Plan.push (Plan.drop lists x (x + m)) x m)
      ∧ (r.Neat lo → s.Neat lo)
      ∧ ∀ i, Foreign lo (pre ++ ⟨m, false⟩ :: post) i → s.byte i = r.byte i := by
  rcases h.release_steps hx hm hpre hpost with
    ⟨s, t, hrun, -, hbyte, hsize, hsettled, hplain, hkept⟩
  refine ⟨t, hrun, hsize, hsettled,
    h.neat hsettled hplain fun y hy => .inl (mem_heads_joined hm hy), fun i hi => ?_⟩
  rw [hkept i (kept_of_foreign hsettled.large hi), hbyte i hi]

end Region

end BoundaryTag