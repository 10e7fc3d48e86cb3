import BoundaryTag.Proofs.BlockPlacement

/-!
# MergeEnd — the last steps of a merge

`finish` writes the tags of a free block, lists it and tells the block after it.

* `DrawnUpTo` says that frame and tags are in order up to an address.
* `DrawnUpTo.insert` and `DrawnUpTo.settled`: the block is listed, and then the one after it told.
* `DrawnUpTo.finish`: all of it, wherever a chain goes on after the block.
* `Drawn.fuse`: blocks that are in no list become one free block.
-/

namespace BoundaryTag

open Extent

namespace FreeLists

/-- The last steps of a merge: tags are written, the block is listed, and the next one is told. -/
def finish (l : FreeLists) (r : Region) (block size : Nat) (events : List Event) :
    Except Fault (Region × Nat × List Event) := do
  let t ← r.header block
  let r ← r.writeFree block size t.prevFree
  let r ← l.insert r block size
  let r ← r.notePrevFree block true
  return (r, block, events)

theorem finish_eq {l : FreeLists} {r s₁ s₂ s₃ : Region} {x n : Nat} {t : Tag} {events : List Event}
    (hhead : r.header x = .ok t) (hwrite : r.writeFree x n t.prevFree = .ok s₁)
    (hinsert : l.insert s₁ x n = .ok s₂) (hnote : s₂.notePrevFree x true = .ok s₃) :
    l.finish r x n events = .ok (s₃, x, events) := by
  rw [finish, hhead, Fault.ok_bind, hwrite, Fault.ok_bind, hinsert, Fault.ok_bind, hnote,
    Fault.ok_bind, Fault.pure_eq_ok]

end FreeLists

namespace Region

/-- Frame and tags below `x` are those of some extents. -/
structure DrawnUpTo (r : Region) (lo : Nat) (pre : List Extent) (x : Nat) : Prop where
  prologue : (r.tagAt (lo + 8)).size = prologueSize ∧ (r.tagAt (lo + 8)).allocated = true
  footer : r.word (lo + prologueSize) = (r.tagAt (lo + 8)).word
  tagged : r.Tagged (lo + frameSize) false pre
  stop_eq : stop (lo + frameSize) pre = x
  aligned : lo % 8 = 0
  span : r.size - lo < 0x100000000

variable {r s : Region} {lo x g m : Nat} {pre mid post : List Extent} {lists kept : Nat → List Nat}
  {q : Bool}

theorem Drawn.drawnUpTo (h : r.Drawn lo (pre ++ post) lists)
    (hx : stop (lo + frameSize) pre = x) : r.DrawnUpTo lo pre x :=
  ⟨h.prologue, h.footer, (Chained.append.1 h.chained).1, hx, h.aligned, h.span⟩

theorem DrawnUpTo.congr (h : r.DrawnUpTo lo pre x) (hsize : s.size = r.size)
    (hbyte : ∀ i, i + 4 < x → ¬(lo + 8 ≤ i ∧ i < lo + prologueSize) →
      ¬IsLink (lo + frameSize) pre i → s.byte i = r.byte i) : s.DrawnUpTo lo pre x := by
  have hlo : lo + 128 ≤ x := h.stop_eq ▸ le_stop (lo + frameSize) pre
  have hframe : ∀ i, i + 4 < lo + 128 → ¬(lo + 8 ≤ i ∧ i < lo + prologueSize) →
      s.byte i = r.byte i := by
    intro i hi hi'
    refine hbyte i (by omega) hi' fun hl => ?_
    have := (hl.bounds h.tagged.large).1
    simp only [frameSize] at this
    omega
  rcases frame_congr h.prologue h.footer hframe with ⟨hprologue, hfooter⟩
  refine ⟨hprologue, hfooter, ?_, h.stop_eq, h.aligned, hsize ▸ h.span⟩
  refine h.tagged.congr (by simp only [frameSize]; omega) fun i hi => ?_
  have hb := hi.bounds h.tagged.large
  rw [h.stop_eq] at hb
  refine hbyte i hb.2 ?_ (not_isLink_of_isTag h.tagged.large hi)
  simp only [frameSize, prologueSize] at *
  omega

theorem DrawnUpTo.located (h : s.DrawnUpTo lo pre x) :
    (x, ⟨g, false⟩) ∈ Extent.located (lo + frameSize) (pre ++ ⟨g, false⟩ :: post) :=
  h.stop_eq ▸ mem_located_split _ _ _ _

theorem DrawnUpTo.end_eq (h : s.DrawnUpTo lo pre x) (hpost : s.Chained (x + g) q post) :
    stop (lo + frameSize) (pre ++ ⟨g, false⟩ :: post) = s.size := by
  rw [stop_append, h.stop_eq]
  exact hpost.stop_eq

theorem DrawnUpTo.large (h : s.DrawnUpTo lo pre x) (hg : 16 ≤ g)
    (hpost : s.Chained (x + g) q post) :
    Large (pre ++ ⟨g, false⟩ :: post) :=
  Large.append.2 ⟨h.tagged.large, Large.cons.2 ⟨hg, hpost.tagged.large⟩⟩

/-- The links of the lists are apart from a block that is in none. -/
theorem DrawnUpTo.apart (h : s.DrawnUpTo lo pre x) (hg : 16 ≤ g) (hpost : s.Chained (x + g) q post)
    (hx : ∀ c < SizeClass.count, x ∉ kept c)
    (hl : Listed (lo + frameSize) (pre ++ ⟨g, false⟩ :: post) (Plan.push kept x g) 0 0) {c y : Nat}
    (hc : c < SizeClass.count) (hy : y ∈ (FreeLists.at lo).sentinelAt c :: kept c) :
    y + 16 ≤ x ∨ x + g ≤ y := by
  rcases List.mem_cons.1 hy with rfl | hy
  · have hle := le_stop (lo + frameSize) pre
    rw [h.stop_eq] at hle
    exact .inl (Nat.le_trans (FreeLists.sentinel_lt lo hc).2 hle)
  · rcases hl.located (FreeLists.mem_push.2 (.inr hy)) with ⟨m, hm, -, -⟩
    exact located_beside (h.large hg hpost) h.located hm fun hyx => hx c hc (hyx ▸ hy)

theorem DrawnUpTo.heads_mod (h : s.DrawnUpTo lo pre x) (h8 : g % 8 = 0)
    (hpost : s.Chained (x + g) q post) {y : Nat}
    (hy : y ∈ heads (lo + frameSize) (pre ++ ⟨g, false⟩ :: post)) : y % 8 = 0 := by
  have hsize : ∀ e ∈ pre ++ ⟨g, false⟩ :: post, e.size % 8 = 0 := by
    intro e he
    rcases List.mem_append.1 he with he | he
    · exact h.tagged.size_mod e he
    · rcases List.mem_cons.1 he with rfl | he
      · exact h8
      · exact hpost.tagged.size_mod e he
  have hmod := Extent.heads_mod hsize hy
  have hlo := h.aligned
  simp only [frameSize] at hmod
  omega

/-- The tags of the block are in no link, so the lists are the same when it comes in. -/
theorem DrawnUpTo.enlist (h : s.DrawnUpTo lo pre x) (hg : 16 ≤ g) (hpost : s.Chained (x + g) q post)
    (hs : (FreeLists.at lo).Represents s kept) (hx : ∀ c < SizeClass.count, x ∉ kept c)
    (hl : Listed (lo + frameSize) (pre ++ ⟨g, false⟩ :: post) (Plan.push kept x g) 0 0) :
    ∃ t, (FreeLists.at lo).insert (s.setFree x g false) x g = .ok t ∧ t.size = s.size
      ∧ (FreeLists.at lo).Represents t (Plan.push kept x g)
      ∧ ∀ i, ¬(FreeLists.at lo).Touches (Plan.push kept x g) i →
          t.byte i = (s.setFree x g false).byte i := by
  have hlo : lo + 128 ≤ x := h.stop_eq ▸ le_stop (lo + frameSize) pre
  have hspan := h.span
  have hend := hpost.le_size
  have hspot : (FreeLists.at lo).Spot (s.setFree x g false) x := by
    refine FreeLists.spot_at (by omega) ?_ ?_
    · rw [size_setFree]
      omega
    · rw [size_setFree]
      exact hspan
  have hfresh : (FreeLists.at lo).Fresh kept x := by
    intro c hc y hy
    have := h.apart hg hpost hx hl hc hy
    omega
  have hs₁ : (FreeLists.at lo).Represents (s.setFree x g false) kept := by
    refine hs.congr (Nat.le_of_eq (size_setFree _).symm) fun c hc y hy i hi hi' => ?_
    have := h.apart hg hpost hx hl hc hy
    exact byte_setFree (by omega) (by omega)
  rcases hs₁.insert (n := g) hspot hfresh with ⟨t, hinsert, hsize, hrep, hbyte⟩
  exact ⟨t, hinsert, hsize.trans (size_setFree _), hrep, hbyte⟩

/-- The block gets its tags and comes into the list of its class. -/
theorem DrawnUpTo.insert (h : s.DrawnUpTo lo pre x) (hg : 16 ≤ g) (h8 : g % 8 = 0)
    (hpost : s.Chained (x + g) q post) (hs : (FreeLists.at lo).Represents s kept)
    (hx : ∀ c < SizeClass.count, x ∉ kept c)
    (hl : Listed (lo + frameSize) (pre ++ ⟨g, false⟩ :: post) (Plan.push kept x g) 0 0) :
    ∃ t, (FreeLists.at lo).insert (s.setFree x g false) x g = .ok t ∧ t.size = s.size
      ∧ t.DrawnUpTo lo pre x ∧ t.TagsAt x false ⟨g, false⟩ ∧ t.Chained (x + g) q post
      ∧ (FreeLists.at lo).Represents t (Plan.push kept x g) ∧ s.KeepsPlain t lo
      ∧ ∀ i, Kept lo (pre ++ ⟨g, false⟩ :: post) i → t.byte i = s.byte i := by
  rcases h.enlist hg hpost hs hx hl with ⟨t, hinsert, hsize, hrep, hbyte⟩
  have hlo : lo + 128 ≤ x := h.stop_eq ▸ le_stop (lo + frameSize) pre
  have hspan := h.span
  have hend := hpost.le_size
  have hlarge := h.large hg hpost
  have hmem : (x, ⟨g, false⟩) ∈ Extent.located (lo + frameSize) (pre ++ ⟨g, false⟩ :: post) :=
    h.located
  have hstop := h.end_eq hpost
  -- from here on, what is written is links of the whole
  have hlink : ∀ i, ¬(lo + 8 ≤ i ∧ i < lo + prologueSize) →
      ¬IsLink (lo + frameSize) (pre ++ ⟨g, false⟩ :: post) i →
      t.byte i = (s.setFree x g false).byte i := by
    intro i hi hil
    exact hbyte i fun ht => (FreeLists.touches_cases hl.freeOnly ht).elim hi hil
  have hinside : ∀ i, lo + 124 ≤ i → ¬(lo + 8 ≤ i ∧ i < lo + prologueSize) := by
    intro i hi
    simp only [prologueSize]
    omega
  have hown : ∀ i, (x ≤ i + 4 ∧ i < x) ∨ (x + g ≤ i + 8 ∧ i + 4 < x + g) →
      t.byte i = (s.setFree x g false).byte i := by
    intro i hi
    refine hlink i (hinside i (by omega)) (not_isLink_of_isTag hlarge ⟨x, _, hmem, ?_⟩)
    exact hi.imp_right fun hi => ⟨rfl, hi⟩
  have hblock : (s.setFree x g false).TagsAt x false ⟨g, false⟩ :=
    tagsAt_setFree (by omega) hg h8 (by omega) (by omega)
  have haligned : ∀ k, ∀ y ∈ Plan.push kept x g k, y % 8 = 0 := by
    intro k y hy
    rcases hl.located hy with ⟨m, hm, -, -⟩
    exact h.heads_mod h8 hpost (mem_heads.2 (.inl ⟨_, hm⟩))
  have hx8 : x % 8 = 0 := h.heads_mod h8 hpost (mem_heads.2 (.inl ⟨_, hmem⟩))
  refine ⟨t, hinsert, hsize, h.congr hsize fun i hi hi' hil => ?_,
    hblock.congr (by omega) (fun i hi hi' => hown i (.inl ⟨hi, hi'⟩))
      fun _ i hi hi' => hown i (.inr ⟨hi, hi'⟩),
    hpost.congr (by omega) hsize fun i hi => ?_, hrep,
    (keepsPlain_setFree hlo hx8 hg h8 (by omega) (by omega)).trans
      (hrep.keepsPlain h.aligned haligned hbyte), fun i hi => ?_⟩
  · rw [hlink i hi' fun hl => ?_, byte_setFree (by omega) (by omega)]
    rcases IsLink.append.1 hl with hl | hl
    · exact hil hl
    · have := (hl.bounds (Large.append.1 hlarge).2).1
      rw [h.stop_eq] at this
      omega
  · have hi4 : x + g ≤ i + 4 := by
      rcases hi with hi | hi
      · exact (hi.bounds hpost.tagged.large).1
      · omega
    rw [hlink i (hinside i (by omega)) fun hil => ?_, byte_setFree (by omega) (by omega)]
    rcases hi with hi | hi
    · exact not_isLink_of_isTag hlarge (hi.after h.stop_eq) hil
    · have := (hil.bounds hlarge).2
      omega
  · have hhead : ¬(x ≤ i + 4 ∧ i < x) := fun hc => hi.tag ⟨x, _, hmem, .inl hc⟩
    have hfoot := hi.footer hmem
    rw [hbyte i (hi.not_touches hl.freeOnly), byte_setFree (by omega) (by omega)]

/-- The block after it is told, and then everything is in order. -/
theorem DrawnUpTo.settled (h : s.DrawnUpTo lo pre x) (hblock : s.TagsAt x false ⟨g, false⟩)
    (hpost : s.Chained (x + g) q post) (htidy : Tidy false (pre ++ ⟨g, false⟩ :: post))
    (hs : (FreeLists.at lo).Represents s lists)
    (hl : Listed (lo + frameSize) (pre ++ ⟨g, false⟩ :: post) lists 0 0) :
    (s.setPrevFree (x + g) true).Settled lo (pre ++ ⟨g, false⟩ :: post) lists := by
  have hlo : lo + 128 ≤ x := h.stop_eq ▸ le_stop (lo + frameSize) pre
  have hg : 16 ≤ g := hblock.large
  have hlarge := h.large hg hpost
  have hbelow : ∀ i, i + 4 < x + g → (s.setPrevFree (x + g) true).byte i = s.byte i :=
    fun i hi => byte_setPrevFree_below hi
  have hup : (s.setPrevFree (x + g) true).DrawnUpTo lo pre x :=
    h.congr (size_setPrevFree _) fun i hi _ _ => hbelow i (by omega)
  have hrest : (s.setPrevFree (x + g) true).Chained (x + g) true post :=
    hpost.setPrevFree (by omega)
  have hchain : (s.setPrevFree (x + g) true).Chained x (lastFree false pre)
      (⟨g, false⟩ :: post) := by
    rw [(Tidy.append.1 htidy).2.1 rfl]
    refine ⟨⟨hblock.congr (by omega) (fun i hi hi' => hbelow i (by omega)) ?_, hrest.tagged⟩,
      hrest.ended⟩
    intro _ i hi hi'
    exact hbelow i hi'
  -- a link is neither in the header of the next block nor in its footer
  have hrep : (FreeLists.at lo).Represents (s.setPrevFree (x + g) true) lists := by
    refine hs.congr (Nat.le_of_eq (size_setPrevFree _).symm) fun c hc y hy i hi hi' => ?_
    rcases List.mem_cons.1 hy with rfl | hy
    · have := (FreeLists.sentinel_lt lo hc).2
      simp only [frameSize] at this
      exact hbelow i (by omega)
    · rcases hl.located hy with ⟨m, hm, -, -⟩
      by_cases hyx : y = x
      · exact hbelow i (by omega)
      · have := located_beside hlarge h.located hm hyx
        exact hpost.byte_setPrevFree (by omega) (by omega) fun hit =>
          not_isLink_of_isTag hlarge (hit.after h.stop_eq) ⟨y, _, hm, rfl, hi, hi'⟩
  refine ⟨⟨hup.prologue, hup.footer, Chained.append.2 ⟨hup.tagged, ?_⟩, hrep, h.aligned, hup.span⟩,
    htidy, hl⟩
  rw [h.stop_eq]
  exact hchain

/-- The last steps of a merge come through and settle the region when the chain goes on after the
block, and the lists hold the other free blocks. -/
theorem DrawnUpTo.finish (h : s.DrawnUpTo lo pre x) (hprev : (s.tagAt x).prevFree = false)
    (hg : 16 ≤ g) (h8 : g % 8 = 0) (hpost : s.Chained (x + g) q post)
    (htidy : Tidy false (pre ++ ⟨g, false⟩ :: post)) (hs : (FreeLists.at lo).Represents s kept)
    (hx : ∀ c < SizeClass.count, x ∉ kept c)
    (hl : Listed (lo + frameSize) (pre ++ ⟨g, false⟩ :: post) (Plan.push kept x g) 0 0) :
    ∃ t, (∀ events, (FreeLists.at lo).finish s x g events = .ok (t, x, events))
      ∧ t.size = s.size ∧ t.Settled lo (pre ++ ⟨g, false⟩ :: post) (Plan.push kept x g)
      ∧ s.KeepsPlain t lo
      ∧ ∀ i, Kept lo (pre ++ ⟨g, false⟩ :: post) i → t.byte i = s.byte i := by
  have hlo : lo + 128 ≤ x := h.stop_eq ▸ le_stop (lo + frameSize) pre
  have hspan := h.span
  have hend := hpost.le_size
  have hx8 : x % 8 = 0 :=
    h.heads_mod h8 hpost (mem_heads.2 (.inl ⟨_, h.located⟩))
  have hwrite : s.writeFree x g (s.tagAt x).prevFree = .ok (s.setFree x g false) := by
    rw [hprev]
    exact writeFree_eq (by omega) h8 (by omega) (by omega) (by omega)
  rcases h.insert hg h8 hpost hs hx hl with
    ⟨t, hinsert, hsize, hup, hblock, hafter, hrep, hplain, hbyte⟩
  have hnote : t.notePrevFree x true = .ok (t.setPrevFree (x + g) true) :=
    hafter.notePrevFree_eq (by omega) (by rw [hblock.size])
  refine ⟨_,
    fun events => FreeLists.finish_eq (header_eq (by omega) (by omega)) hwrite hinsert hnote,
    by rw [size_setPrevFree, hsize], hup.settled hblock hafter htidy hrep hl,
    hplain.trans (keepsPlain_setPrevFree (by simp only [frameSize]; omega) (by omega) (by omega)),
    fun i hi => ?_⟩
  -- a byte that is kept is not in the header of the block that is told
  have hsplit : pre ++ ⟨g, false⟩ :: post = pre ++ [⟨g, false⟩] ++ post := by simp
  have hend' : stop (lo + frameSize) (pre ++ [⟨g, false⟩]) = x + g := by
    rw [stop_append, h.stop_eq]
    rfl
  have hi' := hsplit ▸ hi
  rw [hafter.byte_setPrevFree (by omega) (hend' ▸ hi'.header) (hend' ▸ hi'.tag_right), hbyte i hi]

/-- Blocks that are in no list become one free block, which is listed. -/
theorem Drawn.fuse (h : r.Drawn lo (pre ++ mid ++ post) lists)
    (hl : Listed (lo + frameSize) (pre ++ mid ++ post) lists x (x + m))
    (hx : stop (lo + frameSize) pre = x) (hmid : stop x mid = x + m) (hm : 16 ≤ m)
    (htidy : Tidy false pre) (hpre : lastFree false pre = false) (hlast : lastFree false mid = true)
    (hpost : Tidy true post) :
    ∃ s, (∀ events, (FreeLists.at lo).finish r x m events = .ok (s, x, events))
      ∧ s.size = r.size ∧ s.Settled lo (pre ++ ⟨m, false⟩ :: post) (Plan.push lists x m)
      ∧ r.KeepsPlain s lo
      ∧ ∀ i, Kept lo (pre ++ ⟨m, false⟩ :: post) i → s.byte i = r.byte i := by
  have hchain := (Chained.append.1 (List.append_assoc .. ▸ h.chained)).2
  have hafter := (Chained.append.1 h.chained).2
  rw [hx, hpre] at hchain
  rw [stop_append, hx, hmid, lastFree_append, hpre, hlast] at hafter
  have hmod : m % 8 = 0 := by
    have hmod : stop x mid % 8 = x % 8 :=
      stop_mod fun e he => (Chained.append.1 hchain).1.size_mod e he
    rw [hmid] at hmod
    omega
  have hup : r.DrawnUpTo lo pre x := Drawn.drawnUpTo (List.append_assoc .. ▸ h) hx
  have hone : stop x [⟨m, false⟩] = x + m := rfl
  have hlarge := hup.large hm hafter
  have hes : pre ++ [⟨m, false⟩] ++ post = pre ++ ⟨m, false⟩ :: post := by simp
  have hl₁ := hl.replace hx hmid hone (Large.append.1 (Large.append.1 h.large).1).2
    (Large.cons.2 ⟨hm, nofun⟩)
  rw [hes] at hl₁
  have hl₂ := hl₁.push hlarge hup.located (Nat.le_refl x) (by omega) fun y k hy hxy hyx =>
    (located_inside hlarge hup.located hy hxy hyx).1.symm
  -- the blocks that are joined were in no list
  have habsent : ∀ c < SizeClass.count, x ∉ lists c := by
    intro c _ hc
    rcases hl.located hc with ⟨k, -, -, hout⟩
    omega
  exact hup.finish hchain.prevFree hm hmod hafter (htidy.append_free hpre hpost) h.lists habsent hl₂

end Region

end BoundaryTag
