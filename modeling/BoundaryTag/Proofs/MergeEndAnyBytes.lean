import BoundaryTag.Proofs.BlockMerging
import BoundaryTag.Proofs.SecondUnlink

/-!
# MergeEndAnyBytes — the last steps of a merge on any bytes

`finish` gives a block its tags, lists it and tells the next one, whatever the bytes around it are.

* `Leading` is all that it needs to know: sentinels lead to blocks that are there.
* `pushed` is the region before the last step, in which the next block is told.
* `Finished` is all that is known afterwards (`Leading.finished`).
* If the result is settled, the block is one of its extents (`Finished.located`), the chain went on
  after it (`Finished.chained_after`), and no sentinel led to it before (`Finished.not_led_back`).
-/

namespace BoundaryTag

open Extent

namespace Region

/-- The sentinels lead to blocks in the region, each of which is the one at `x` or apart from it. -/
structure Leading (s : Region) (lo x : Nat) : Prop where
  above : lo + frameSize ≤ x
  inside : x + 16 ≤ s.size
  span : s.size - lo < 0x100000000
  leads : ∀ c < SizeClass.count,
    ∀ a ∈ (FreeLists.at lo).links.linkAt s ((FreeLists.at lo).sentinelAt c + 4),
      lo + frameSize ≤ a ∧ a + 16 ≤ s.size ∧ (a + 16 ≤ x ∨ a = x ∨ x + 16 ≤ a)

/-- The block at `x` was given `g` bytes, it is the first of its list, and the block after it was
told. -/
structure Finished (s t : Region) (lo x g : Nat) : Prop where
  fits : x + g ≤ s.size
  size : t.size = s.size
  block : (t.tagAt x).size = g ∧ (t.tagAt x).allocated = false
  first : (FreeLists.at lo).links.linkAt t ((FreeLists.at lo).sentinelAt (SizeClass.of g) + 4)
    = some x
  second : (FreeLists.at lo).links.linkAt t (x + 4)
    = (FreeLists.at lo).links.linkAt s ((FreeLists.at lo).sentinelAt (SizeClass.of g) + 4)
  others : ∀ c < SizeClass.count, c ≠ SizeClass.of g →
    (FreeLists.at lo).links.linkAt t ((FreeLists.at lo).sentinelAt c + 4)
      = (FreeLists.at lo).links.linkAt s ((FreeLists.at lo).sentinelAt c + 4)
  told : ∃ u : Region, t = u.setPrevFree (x + g) true ∧ u.size = s.size
    ∧ ∀ i, lo + frameSize ≤ i + 4 → ¬(x ≤ i + 4 ∧ i < x + 8) → ¬(x + g ≤ i + 8 ∧ i + 4 < x + g) →
      (∀ a ∈ (FreeLists.at lo).links.linkAt s ((FreeLists.at lo).sentinelAt (SizeClass.of g) + 4),
        ¬(a ≤ i ∧ i < a + 4)) → u.byte i = s.byte i

variable {r s t : Region} {lo x y z g c i : Nat} {es : List Extent} {lists : Nat → List Nat}

/-- The region in which the block at `x` has the tags of a free block of `g` bytes and is in front
of its list. -/
def pushed (s : Region) (lo x g : Nat) : Region :=
  (FreeLists.at lo).pushFront (s.setFree x g (s.tagAt x).prevFree) x
    ((FreeLists.at lo).sentinelAt (SizeClass.of g))
    ((FreeLists.at lo).links.linkAt s ((FreeLists.at lo).sentinelAt (SizeClass.of g) + 4))

@[simp] theorem size_pushed : (s.pushed lo x g).size = s.size := by
  rw [pushed, FreeLists.size_pushFront, size_setFree]

/-- Other than tags, only links of the block, of its sentinel and of the block behind it change. -/
theorem byte_pushed (hi : ¬(x ≤ i ∧ i < x + 8))
    (hi' : ¬((FreeLists.at lo).sentinelAt (SizeClass.of g) + 4 ≤ i
      ∧ i < (FreeLists.at lo).sentinelAt (SizeClass.of g) + 8))
    (ho : ∀ a ∈ (FreeLists.at lo).links.linkAt s
      ((FreeLists.at lo).sentinelAt (SizeClass.of g) + 4), ¬(a ≤ i ∧ i < a + 4)) :
    (s.pushed lo x g).byte i = (s.setFree x g (s.tagAt x).prevFree).byte i := by
  refine FreeLists.byte_pushFront (by omega) (by omega) fun a ha => ?_
  have := ho a ha
  omega

namespace Leading

theorem spot_sentinel (h : s.Leading lo x) (hc : c < SizeClass.count) :
    (FreeLists.at lo).Spot s ((FreeLists.at lo).sentinelAt c) :=
  FreeLists.spot_sentinel (Nat.le_trans h.above (Nat.le_of_add_right_le h.inside)) hc

theorem spot (h : s.Leading lo x) : (FreeLists.at lo).Spot s x := by
  have ha := h.above
  have hi := h.inside
  simp only [frameSize] at ha
  exact FreeLists.spot_at (by omega) (by omega) h.span

theorem spot_first (h : s.Leading lo x) (hc : c < SizeClass.count) {a : Nat}
    (ha : a ∈ (FreeLists.at lo).links.linkAt s ((FreeLists.at lo).sentinelAt c + 4)) :
    (FreeLists.at lo).Spot s a := by
  have hl := h.leads c hc a ha
  simp only [frameSize] at hl
  exact FreeLists.spot_at (by omega) (by omega) h.span

/-! ## In front of its list -/

/-- The header is no link of the list that the block is put into. -/
theorem tagAt_pushed (h : s.Leading lo x) (hg : 16 ≤ g) (hend : x + g ≤ s.size + 4) :
    (s.pushed lo x g).tagAt x = Tag.make g false (s.tagAt x).prevFree := by
  have hk := SizeClass.of_lt_count g
  have hsent := (FreeLists.sentinel_lt lo hk).2
  have habove := h.above
  rw [tagAt_congr (r := s.setFree x g (s.tagAt x).prevFree) (by omega) fun i hi hi' => ?_,
    tagAt_setFree (by omega) (by omega) hend]
  simp only [frameSize] at habove hsent
  refine byte_pushed (by omega) (by omega) fun a ha => ?_
  have := h.leads _ hk a ha
  omega

theorem first_pushed (h : s.Leading lo x) :
    (FreeLists.at lo).links.linkAt (s.pushed lo x g)
      ((FreeLists.at lo).sentinelAt (SizeClass.of g) + 4) = some x := by
  have hroom : s.size ≤ (s.setFree x g (s.tagAt x).prevFree).size :=
    Nat.le_of_eq (size_setFree _).symm
  exact FreeLists.linkAt_pushFront_head ((h.spot_sentinel (SizeClass.of_lt_count g)).of_size hroom)
    (h.spot.of_size hroom)

theorem second_pushed (h : s.Leading lo x) :
    (FreeLists.at lo).links.linkAt (s.pushed lo x g) (x + 4)
      = (FreeLists.at lo).links.linkAt s
        ((FreeLists.at lo).sentinelAt (SizeClass.of g) + 4) := by
  have hk := SizeClass.of_lt_count g
  have hsent := (FreeLists.sentinel_lt lo hk).2
  have habove := h.above
  have hroom : s.size ≤ (s.setFree x g (s.tagAt x).prevFree).size :=
    Nat.le_of_eq (size_setFree _).symm
  refine FreeLists.linkAt_pushFront_next (fun a ha => (h.spot_first hk ha).of_size hroom)
    (h.spot.of_size hroom) (by omega) fun a ha => ?_
  have := h.leads _ hk a ha
  omega

theorem others_pushed (h : s.Leading lo x) (hg : 16 ≤ g) (hc : c < SizeClass.count)
    (hne : c ≠ SizeClass.of g) :
    (FreeLists.at lo).links.linkAt (s.pushed lo x g) ((FreeLists.at lo).sentinelAt c + 4)
      = (FreeLists.at lo).links.linkAt s ((FreeLists.at lo).sentinelAt c + 4) := by
  have hk := SizeClass.of_lt_count g
  have hother := (FreeLists.sentinel_lt lo hc).2
  have habove := h.above
  have hapart : (FreeLists.at lo).sentinelAt c + 8 ≤ (FreeLists.at lo).sentinelAt (SizeClass.of g)
      ∨ (FreeLists.at lo).sentinelAt (SizeClass.of g) + 8 ≤ (FreeLists.at lo).sentinelAt c := by
    simp only [FreeLists.sentinelAt, sentinelSize]
    omega
  refine Links.linkAt_congr fun i hi hi' => ?_
  rw [byte_pushed (by omega) (by omega) fun a ha => ?_, byte_setFree (by omega) (by omega)]
  have := h.leads _ hk a ha
  omega

/-! ## All steps -/

/-- The last steps of a merge come through only if the block ends inside. -/
theorem finish_eq_ok {events ev : List Event} (h : s.Leading lo x) (hg : 16 ≤ g) (h8 : g % 8 = 0)
    (hrun : (FreeLists.at lo).finish s x g events = .ok (t, y, ev)) :
    x + g ≤ s.size ∧ ev = events ∧ t = (s.pushed lo x g).setPrevFree (x + g) true := by
  have hk := SizeClass.of_lt_count g
  have hsent := FreeLists.sentinel_lt lo hk
  have habove := h.above
  have hin := h.inside
  have hspan := h.span
  simp only [frameSize] at habove hsent
  rw [FreeLists.finish, header_eq (by omega) (by omega), Fault.ok_bind] at hrun
  rcases Fault.bind_eq_ok.1 hrun with ⟨s₁, hwrite, hrun⟩
  rcases Fault.bind_eq_ok.1 hrun with ⟨s₂, hinsert, hrun⟩
  rcases Fault.bind_eq_ok.1 hrun with ⟨s₃, hnote, hrun⟩
  -- each of the three writes came through, so there was room for it
  rcases writeFree_eq_ok (by omega) (by omega) hwrite with ⟨hfit, hs₁⟩
  have hlink : (FreeLists.at lo).links.linkAt s₁ ((FreeLists.at lo).sentinelAt (SizeClass.of g) + 4)
      = (FreeLists.at lo).links.linkAt s ((FreeLists.at lo).sentinelAt (SizeClass.of g) + 4) := by
    rw [hs₁]
    exact Links.linkAt_congr fun i hi hi' => byte_setFree (by omega) (by omega)
  have hroom : s.size ≤ s₁.size := hs₁ ▸ Nat.le_of_eq (size_setFree _).symm
  rw [FreeLists.insert_eq rfl ((h.spot_sentinel hk).of_size hroom) (h.spot.of_size hroom) hlink
    fun a ha => (h.spot_first hk ha).of_size hroom] at hinsert
  have hs₂ : s₂ = s.pushed lo x g := by
    rw [pushed, ← hs₁]
    exact (Except.ok.inj hinsert).symm
  have htag : (s₂.tagAt x).size = g := by
    rw [hs₂, h.tagAt_pushed hg hfit, Tag.size_make _ _ h8 (by omega)]
  rcases notePrevFree_eq_ok hnote with ⟨hend, hs₃⟩
  rw [htag, hs₂, size_pushed] at hend
  rw [htag, hs₂] at hs₃
  rw [Fault.pure_eq_ok, Except.ok.injEq, Prod.mk.injEq, Prod.mk.injEq] at hrun
  exact ⟨hend, hrun.2.2.symm, hrun.1.symm.trans hs₃⟩

theorem finished {events ev : List Event} (h : s.Leading lo x) (hg : 16 ≤ g) (h8 : g % 8 = 0)
    (hrun : (FreeLists.at lo).finish s x g events = .ok (t, y, ev)) : s.Finished t lo x g := by
  have habove := h.above
  have hspan := h.span
  simp only [frameSize] at habove
  rcases h.finish_eq_ok hg h8 hrun with ⟨hend, -, ht⟩
  have hsent : ∀ c < SizeClass.count, (FreeLists.at lo).sentinelAt c + 16 ≤ x := fun c hc =>
    Nat.le_trans (FreeLists.sentinel_lt lo hc).2 habove
  -- what the next block is told is written above this one
  have hkeep : ∀ i, i + 4 < x + g → t.byte i = (s.pushed lo x g).byte i := by
    intro i hi
    rw [ht]
    exact byte_setPrevFree_below hi
  have hlink : ∀ a, a + 8 ≤ x + g →
      (FreeLists.at lo).links.linkAt t a = (FreeLists.at lo).links.linkAt (s.pushed lo x g) a :=
    fun a ha => Links.linkAt_congr fun i _ hi => hkeep i (by omega)
  have hlinkSentinel : ∀ c < SizeClass.count,
      (FreeLists.at lo).links.linkAt t ((FreeLists.at lo).sentinelAt c + 4)
        = (FreeLists.at lo).links.linkAt (s.pushed lo x g)
          ((FreeLists.at lo).sentinelAt c + 4) := by
    intro c hc
    have := hsent c hc
    exact hlink _ (by omega)
  have htag : t.tagAt x = Tag.make g false (s.tagAt x).prevFree := by
    rw [tagAt_congr (by omega) fun i hi hi' => hkeep i (by omega),
      h.tagAt_pushed hg (Nat.le_add_right_of_le hend)]
  have hk := SizeClass.of_lt_count g
  refine ⟨hend, by rw [ht, size_setPrevFree, size_pushed], ?_,
    (hlinkSentinel _ hk).trans h.first_pushed, (hlink _ (by omega)).trans h.second_pushed,
    fun c hc hne => (hlinkSentinel c hc).trans (h.others_pushed hg hc hne), _, ht, size_pushed,
    fun i hi hi' hi'' ho => ?_⟩
  · rw [htag, Tag.size_make _ _ h8 (by omega), Tag.allocated_make _ _ h8 (by omega)]
    exact ⟨rfl, rfl⟩
  · have := (FreeLists.sentinel_lt lo hk).2
    rw [byte_pushed (by omega) (by omega) ho, byte_setFree (by omega) (by omega)]

end Leading

/-! ## When the result is settled -/

namespace Finished

variable {pre post : List Extent} {kept : Nat → List Nat}

/-- The block is the first of its list. -/
theorem lists_eq (hf : s.Finished t lo x g) (ht : t.Settled lo es lists) :
    ∃ tail, lists (SizeClass.of g) = x :: tail ∧ (FreeLists.at lo).Strung t x tail := by
  have hstr := ht.drawn.lists.strung _ (SizeClass.of_lt_count g)
  have hhead := hstr.next
  rw [hf.first] at hhead
  rcases List.head?_eq_some_iff.1 hhead.symm with ⟨tail, htail⟩
  rw [htail] at hstr
  exact ⟨tail, htail, hstr.2.2⟩

theorem mem_lists (hf : s.Finished t lo x g) (ht : t.Settled lo es lists) :
    x ∈ lists (SizeClass.of g) := by
  rcases hf.lists_eq ht with ⟨tail, htail, -⟩
  rw [htail]
  exact List.mem_cons_self

/-- The block is one of the extents. -/
theorem located (hf : s.Finished t lo x g) (ht : t.Settled lo es lists) :
    (x, ⟨g, false⟩) ∈ Extent.located (lo + frameSize) es := by
  rcases ht.listed.located (hf.mem_lists ht) with ⟨m, hm, -, -⟩
  rcases ht.drawn.tagsAt hm with ⟨p, htag⟩
  have hmg : m = g :=
    calc m = (t.tagAt x).size := htag.size.symm
      _ = g := hf.block.1
  rw [← hmg]
  exact hm

/-- Blocks that were below it still come first. -/
theorem settled_split (hf : s.Finished t lo x g) (ht : t.Settled lo es lists) (hg : 16 ≤ g)
    (hx : stop (lo + frameSize) pre = x) (hpre : t.Tagged (lo + frameSize) false pre) :
    ∃ post, es = pre ++ ⟨g, false⟩ :: post ∧ t.Chained (x + g) true post ∧ Tidy true post := by
  -- the chain is read from the front, first over what was below and then over the block
  rcases ht.drawn.chained.exists_append hpre with ⟨fs, rfl, hfs⟩
  rw [hx] at hfs
  have hone : t.Tagged x (lastFree false pre) [⟨g, false⟩] := by
    rcases ht.drawn.tagsAt (hf.located ht) with ⟨p, htag⟩
    refine ⟨⟨hg, htag.size, htag.allocated, hfs.prevFree, htag.footer⟩, trivial⟩
  rcases hfs.exists_append hone with ⟨post, rfl, hpost⟩
  exact ⟨post, rfl, hpost, (Tidy.append.1 ht.tidy).2.2⟩

/-- A sentinel that led somewhere leads there still, and not to the block itself. -/
theorem not_led_back (hf : s.Finished t lo x g) (ht : t.Settled lo es lists)
    (hc : c < SizeClass.count)
    (hz : (FreeLists.at lo).links.linkAt s ((FreeLists.at lo).sentinelAt c + 4) = some z) :
    z ∈ lists c ∧ z ≠ x := by
  rcases hf.lists_eq ht with ⟨tail, htail, hstr⟩
  -- if the block came back, its list would go round in a circle or share it with another
  by_cases hcg : c = SizeClass.of g
  · -- the block links on to it
    have hnext := hstr.next
    rw [hf.second, ← hcg, hz] at hnext
    have hmem : z ∈ tail := List.mem_of_mem_head? hnext.symm
    have hnd := (List.nodup_cons.1 (ht.drawn.lists.nodup c hc)).2
    rw [hcg, htail] at hnd ⊢
    exact ⟨List.mem_cons_of_mem _ hmem, fun hzx => (List.nodup_cons.1 hnd).1 (hzx ▸ hmem)⟩
  · have hnext := (ht.drawn.lists.strung c hc).next
    rw [hf.others c hc hcg, hz] at hnext
    have hmem : z ∈ lists c := List.mem_of_mem_head? hnext.symm
    refine ⟨hmem, ?_⟩
    exact ht.drawn.lists.ne_of_class hc (SizeClass.of_lt_count g) (List.mem_cons_of_mem _ hmem)
      (List.mem_cons_of_mem _ (hf.mem_lists ht)) hcg

/-- The next block is in use, so that only its header was written. -/
theorem byte_eq (hf : s.Finished t lo x g) (hg : 16 ≤ g) (hpost : t.Chained (x + g) true post)
    (htidy : Tidy true post) (hlo : lo + frameSize ≤ i + 4) (hi : ¬(x ≤ i + 4 ∧ i < x + 8))
    (hi' : ¬(x + g ≤ i + 8 ∧ i < x + g))
    (ho : ∀ a ∈ (FreeLists.at lo).links.linkAt s
      ((FreeLists.at lo).sentinelAt (SizeClass.of g) + 4), ¬(a ≤ i ∧ i < a + 4)) :
    t.byte i = s.byte i := by
  rcases hf.told with ⟨u, ht, hsize, hbyte⟩
  have hfits := hf.fits
  simp only [frameSize] at hlo
  -- telling a block in use writes its header, and no footer
  have huse := hpost.allocated htidy
  have htag : t.tagAt (x + g) = (u.tagAt (x + g)).withPrevFree true := by
    rw [ht]
    exact tagAt_setPrevFree (by omega) (by omega)
  rw [htag, Tag.allocated_withPrevFree] at huse
  rw [← hbyte i hlo hi (by omega) ho, ht]
  refine byte_setPrevFree (by omega) fun ha _ => ?_
  rw [huse] at ha
  cases ha

/-- The links of a listed block are apart from the block, and from its tags. -/
theorem apart (hf : s.Finished t lo x g) (ht : t.Settled lo es lists) (hy : y ∈ lists c)
    (hyx : y ≠ x) : lo + frameSize ≤ y ∧ (y + 16 ≤ x ∨ x + g ≤ y) := by
  rcases ht.listed.located hy with ⟨m, hm, -, -⟩
  have hb := ht.drawn.located hm
  exact ⟨hb.1, located_beside ht.large (hf.located ht) hm hyx⟩

/-- If the lists were those of some sequences, the block is pushed on one of them. -/
theorem lists_eq_push (hf : s.Finished t lo x g) (ht : t.Settled lo es lists) (hg : 16 ≤ g)
    (hpost : t.Chained (x + g) true post) (htidy : Tidy true post)
    (hs : (FreeLists.at lo).Represents s kept) (hc : c < SizeClass.count) :
    lists c = Plan.push kept x g c := by
  have hgc := SizeClass.of_lt_count g
  have hfirst := (hs.strung _ hgc).next
  have hold : ∀ a ∈ (FreeLists.at lo).links.linkAt s
      ((FreeLists.at lo).sentinelAt (SizeClass.of g) + 4), (FreeLists.at lo).Known kept a := by
    intro a ha
    rw [hfirst] at ha
    exact FreeLists.known_of_mem hgc (List.mem_of_mem_head? ha)
  -- what is listed before and after goes on as before
  have hnext : ∀ j < SizeClass.count, ∀ y ∈ kept j, y ∈ lists j → y ≠ x →
      (FreeLists.at lo).links.linkAt t (y + 4) = (FreeLists.at lo).links.linkAt s (y + 4) := by
    intro j hj y hy hyl hyx
    have hya := hf.apart ht hyl hyx
    refine Links.linkAt_congr fun i hi hi' => hf.byte_eq hg hpost htidy (by omega) (by omega)
      (by omega) fun a ha => ?_
    have := hs.eq_or_apart (FreeLists.known_of_mem hj hy) (hold a ha)
    omega
  rw [Plan.push]
  split
  case isTrue hcg =>
    -- what follows the block is what its sentinel led to
    subst hcg
    rcases hf.lists_eq ht with ⟨tail, htail, hstr⟩
    have hnd := (List.nodup_cons.1 (ht.drawn.lists.nodup _ hc)).2
    rw [htail] at hnd
    have hsame : tail = kept (SizeClass.of g) := by
      refine (hs.strung _ hc).unique hstr hf.second fun y hy hyt => hnext _ hc y hy ?_ fun hyx => ?_
      · rw [htail]
        exact List.mem_cons_of_mem _ hyt
      · exact (List.nodup_cons.1 hnd).1 (hyx ▸ hyt)
    rw [htail, hsame]
  case isFalse hcg =>
    refine (hs.strung _ hc).unique (ht.drawn.lists.strung _ hc) (hf.others c hc hcg)
      fun y hy hyl => hnext c hc y hy hyl ?_
    exact ht.drawn.lists.ne_of_class hc hgc (List.mem_cons_of_mem _ hyl)
      (List.mem_cons_of_mem _ (hf.mem_lists ht)) hcg

/-- The chain went on after the block before. -/
theorem chained_after (hf : s.Finished t lo x g) (hg : 16 ≤ g)
    (ht : t.Settled lo (pre ++ ⟨g, false⟩ :: post) lists) (hx : stop (lo + frameSize) pre = x)
    (hs : (FreeLists.at lo).Represents s kept) : ∃ q, s.Chained (x + g) q post := by
  have hlo : lo + 128 ≤ x := hx ▸ le_stop (lo + frameSize) pre
  have hpost : t.Chained (x + g) true post := by
    have hsplit := (Chained.append.1 ht.drawn.chained).2
    rw [hx] at hsplit
    exact hsplit.tail
  have htidy : Tidy true post := (Tidy.append.1 ht.tidy).2.2
  have hgc := SizeClass.of_lt_count g
  have hfirst := (hs.strung _ hgc).next
  rcases hf.told with ⟨u, htu, hsize, hbyte⟩
  rcases (htu ▸ hpost).of_setPrevFree (by omega) htidy with ⟨q, hq⟩
  have hfits := hf.fits
  have hlarge := hpost.tagged.large
  -- the tags of the next blocks are no links of what is listed now
  have hlink : ∀ i, ∀ a ∈ (FreeLists.at lo).links.linkAt s
      ((FreeLists.at lo).sentinelAt (SizeClass.of g) + 4), a ≤ i ∧ i < a + 4 →
      IsLink (lo + frameSize) (pre ++ ⟨g, false⟩ :: post) i := by
    intro i a ha hai
    rw [hfirst] at ha
    have hmem : a ∈ lists (SizeClass.of g) := by
      rw [hf.lists_eq_push ht hg hpost htidy hs hgc]
      exact FreeLists.mem_push.2 (.inr (List.mem_of_mem_head? ha))
    rcases ht.listed.located hmem with ⟨m, hm, -, -⟩
    exact ⟨a, _, hm, rfl, hai.1, by omega⟩
  have habove : ∀ i, IsTag (x + g) post i ∨ (u.size ≤ i + 4 ∧ i < u.size) → x + g ≤ i + 4 := by
    intro i hi
    rcases hi with hi | hi
    · exact (hi.bounds hlarge).1
    · omega
  refine ⟨q, hq.congr (by omega) hsize.symm fun i hi => ?_⟩
  have hi' := habove i hi
  refine (hbyte i (by simp only [frameSize]; omega) (by omega) (by omega) fun a ha hai => ?_).symm
  have hil := hlink i a ha hai
  rcases hi with hi | hi
  · exact not_isLink_of_isTag ht.large (hi.after hx) hil
  · have hb := (hil.bounds ht.large).2
    rw [ht.drawn.stop_eq, hf.size] at hb
    omega

end Finished

end Region

end BoundaryTag
