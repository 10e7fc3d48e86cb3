import BoundaryTag.Proofs.Extents
import BoundaryTag.Proofs.TotalWrites

/-!
# HeaderChains — headers that follow one another

When the tags from an address on are those of some extents.

* `Tagged` says so for a stretch of blocks, `Ended` for the epilogue, and `Chained` for both. Unlike
  `Carries` they allow free neighbours (`carries_iff`).
* Stretches are put together and taken apart at any block (`Tagged.append`, `Chained.append`).
* They depend on the bytes of tags only (`Tagged.congr`, `Chained.congr`).
* `Chained.setPrevFree`: telling a block about the one before it keeps everything else, and
  `Chained.of_setPrevFree`: a chain that begins with a block in use was one before.
* `Chained.exists_append` and `Chained.unique`: the bytes have one chain only.
-/

namespace BoundaryTag

namespace Region

open Extent

/-- The tags of the block at `bp` are those of `e`, after a block that is free or not. -/
structure TagsAt (r : Region) (bp : Nat) (prevFree : Bool) (e : Extent) : Prop where
  large : minBlock ≤ e.size
  size : (r.tagAt bp).size = e.size
  allocated : (r.tagAt bp).allocated = e.allocated
  prevFree : (r.tagAt bp).prevFree = prevFree
  footer : e.allocated = false → r.word (bp + e.size - 8) = (r.tagAt bp).word

/-- The tags from `bp` on are those of the extents. -/
def Tagged (r : Region) : Nat → Bool → List Extent → Prop
  | _, _, [] => True
  | bp, prevFree, e :: es => r.TagsAt bp prevFree e ∧ Tagged r (bp + e.size) (!e.allocated) es

/-- The epilogue is at `bp`. -/
structure Ended (r : Region) (bp : Nat) (prevFree : Bool) : Prop where
  top : bp = r.size
  size : (r.tagAt bp).size = 0
  allocated : (r.tagAt bp).allocated = true
  prevFree : (r.tagAt bp).prevFree = prevFree

/-- The tags from `bp` to the end of the region are those of the extents. -/
structure Chained (r : Region) (bp : Nat) (prevFree : Bool) (es : List Extent) : Prop where
  tagged : r.Tagged bp prevFree es
  ended : r.Ended (stop bp es) (lastFree prevFree es)

variable {r s : Region} {bp x : Nat} {p q : Bool} {e : Extent} {es fs : List Extent}

theorem carries_iff : r.Carries bp p es ↔ r.Chained bp p es ∧ Tidy p es := by
  induction es generalizing bp p with
  | nil =>
      constructor
      · rintro ⟨htop, hsize, halloc, hprev⟩
        exact ⟨⟨trivial, ⟨htop, hsize, halloc, hprev⟩⟩, trivial⟩
      · rintro ⟨⟨_, hend⟩, _⟩
        exact ⟨hend.top, hend.size, hend.allocated, hend.prevFree⟩
  | cons e es ih =>
      constructor
      · rintro ⟨hlarge, hsize, halloc, hprev, hfree, hrest⟩
        rcases ih.1 hrest with ⟨⟨htags, hend⟩, htidy⟩
        have he : r.TagsAt bp p e := ⟨hlarge, hsize, halloc, hprev, fun ha => (hfree ha).2⟩
        exact ⟨⟨⟨he, htags⟩, hend⟩, fun ha => (hfree ha).1, htidy⟩
      · rintro ⟨⟨⟨he, htags⟩, hend⟩, hfree, htidy⟩
        have hrest := ih.2 ⟨⟨htags, hend⟩, htidy⟩
        exact ⟨he.large, he.size, he.allocated, he.prevFree,
          fun ha => ⟨hfree ha, he.footer ha⟩, hrest⟩

theorem Ended.of_tagAt (h : r.tagAt bp = Tag.make 0 true p) (htop : bp = r.size) :
    r.Ended bp p := by
  refine ⟨htop, ?_, ?_, ?_⟩
  · rw [h, Tag.size_make _ _ (by decide) (by decide)]
  · rw [h, Tag.allocated_make _ _ (by decide) (by decide)]
  · rw [h, Tag.prevFree_make _ _ (by decide) (by decide)]

/-! ## Taking stretches apart -/

theorem Tagged.append :
    r.Tagged bp p (es ++ fs) ↔ r.Tagged bp p es ∧ r.Tagged (stop bp es) (lastFree p es) fs := by
  induction es generalizing bp p with
  | nil => simp [Tagged, lastFree]
  | cons e es ih => rw [List.cons_append, Tagged, Tagged, ih, stop_cons, lastFree, and_assoc]

theorem Chained.append :
    r.Chained bp p (es ++ fs) ↔ r.Tagged bp p es ∧ r.Chained (stop bp es) (lastFree p es) fs := by
  constructor
  · rintro ⟨htags, hend⟩
    rcases Tagged.append.1 htags with ⟨hes, hfs⟩
    rw [stop_append, lastFree_append] at hend
    exact ⟨hes, hfs, hend⟩
  · rintro ⟨hes, hfs, hend⟩
    refine ⟨Tagged.append.2 ⟨hes, hfs⟩, ?_⟩
    rw [stop_append, lastFree_append]
    exact hend

theorem Chained.tail (h : r.Chained bp p (e :: es)) :
    r.Chained (bp + e.size) (!e.allocated) es := ⟨h.tagged.2, h.ended⟩

theorem Tagged.at (h : r.Tagged bp p es) (hx : (x, e) ∈ located bp es) :
    ∃ q, r.TagsAt x q e := by
  rcases exists_split hx with ⟨pre, post, rfl, rfl⟩
  exact ⟨_, (Tagged.append.1 h).2.1⟩

theorem Tagged.large (h : r.Tagged bp p es) : Large es := by
  induction es generalizing bp p with
  | nil => exact fun e he => nomatch he
  | cons e es ih => exact Large.cons.2 ⟨h.1.large, ih h.2⟩

theorem TagsAt.size_mod (h : r.TagsAt bp p e) : e.size % 8 = 0 := by
  rw [← h.size]
  exact Tag.size_mod _

theorem TagsAt.size_lt (h : r.TagsAt bp p e) : e.size < 0x100000000 := by
  have := (r.tagAt bp).size_le
  rw [h.size] at this
  omega

theorem Tagged.size_mod (h : r.Tagged bp p es) : ∀ e ∈ es, e.size % 8 = 0 := by
  induction es generalizing bp p with
  | nil => exact fun e he => nomatch he
  | cons e es ih =>
      intro f hf
      rcases List.mem_cons.1 hf with rfl | hf
      · exact h.1.size_mod
      · exact ih h.2 f hf

/-- All addresses of a stretch are aligned if the first one is. -/
theorem Tagged.located_mod (h : r.Tagged bp p es) (hx : (x, e) ∈ located bp es) :
    x % 8 = bp % 8 := by
  rcases exists_split hx with ⟨pre, post, rfl, rfl⟩
  exact stop_mod (Tagged.append.1 h).1.size_mod

theorem Chained.stop_eq (h : r.Chained bp p es) : stop bp es = r.size := h.ended.top

theorem Chained.le_size (h : r.Chained bp p es) : bp ≤ r.size := by
  rw [← h.stop_eq]
  exact le_stop bp es

/-- The header where the next block would be knows whether the last block is free. -/
theorem Chained.prevFree (h : r.Chained bp p es) : (r.tagAt bp).prevFree = p := by
  cases es with
  | nil => exact h.ended.prevFree
  | cons e es => exact h.tagged.1.prevFree

/-- What follows a free block is in use, and so is the epilogue. -/
theorem Chained.allocated (h : r.Chained bp p es) (htidy : Tidy true es) :
    (r.tagAt bp).allocated = true := by
  cases es with
  | nil => exact h.ended.allocated
  | cons e es => exact h.tagged.1.allocated.trans htidy.allocated

/-! ## Which bytes matter -/

theorem TagsAt.congr (h4 : 4 ≤ bp) (h : r.TagsAt bp p e)
    (hh : ∀ i, bp ≤ i + 4 → i < bp → s.byte i = r.byte i)
    (hf : e.allocated = false → ∀ i, bp + e.size ≤ i + 8 → i + 4 < bp + e.size →
      s.byte i = r.byte i) : s.TagsAt bp p e := by
  have ht : s.tagAt bp = r.tagAt bp := tagAt_congr h4 fun i hi hi' => hh i (by omega) hi'
  have hl : 16 ≤ e.size := h.large
  refine ⟨h.large, ht ▸ h.size, ht ▸ h.allocated, ht ▸ h.prevFree, fun ha => ?_⟩
  rw [ht, ← h.footer ha]
  exact word_congr fun i hi hi' => hf ha i (by omega) (by omega)

theorem Tagged.congr (h4 : 4 ≤ bp) (h : r.Tagged bp p es)
    (hs : ∀ i, IsTag bp es i → s.byte i = r.byte i) : s.Tagged bp p es := by
  induction es generalizing bp p with
  | nil => trivial
  | cons e es ih =>
      have hhead : (bp, e) ∈ located bp (e :: es) := mem_located_cons.2 (.inl ⟨rfl, rfl⟩)
      refine ⟨h.1.congr h4 ?_ ?_, ih (by omega) h.2 ?_⟩
      · intro i hi hi'
        exact hs i ⟨bp, e, hhead, .inl ⟨hi, hi'⟩⟩
      · intro ha i hi hi'
        exact hs i ⟨bp, e, hhead, .inr ⟨ha, hi, hi'⟩⟩
      · rintro i ⟨y, f, hy, hi⟩
        exact hs i ⟨y, f, mem_located_cons.2 (.inr hy), hi⟩

theorem Ended.congr (h4 : 4 ≤ bp) (h : r.Ended bp p) (hsize : s.size = r.size)
    (hs : ∀ i, bp ≤ i + 4 → i < bp → s.byte i = r.byte i) : s.Ended bp p := by
  have ht : s.tagAt bp = r.tagAt bp := tagAt_congr h4 fun i hi hi' => hs i (by omega) hi'
  exact ⟨hsize ▸ h.top, ht ▸ h.size, ht ▸ h.allocated, ht ▸ h.prevFree⟩

theorem Chained.congr (h4 : 4 ≤ bp) (h : r.Chained bp p es) (hsize : s.size = r.size)
    (hs : ∀ i, IsTag bp es i ∨ (r.size ≤ i + 4 ∧ i < r.size) → s.byte i = r.byte i) :
    s.Chained bp p es := by
  have hstop := h.stop_eq
  have hle := le_stop bp es
  -- the epilogue has its header in the last four bytes
  refine ⟨h.tagged.congr h4 fun i hi => hs i (.inl hi), ?_⟩
  exact h.ended.congr (by omega) hsize fun i hi hi' => hs i (.inr (by omega))

/-! ## Telling a block about the one before it -/

/-- The tag bytes that change when the first block is told about the one before it. -/
theorem Chained.byte_setPrevFree {i : Nat} (h4 : 4 ≤ x) (h : r.Chained x q es)
    (hx : ¬(x ≤ i + 4 ∧ i < x)) (hi : ¬IsTag x es i) :
    (r.setPrevFree x p).byte i = r.byte i := by
  refine Region.byte_setPrevFree (by omega) fun ha _ => ?_
  cases es with
  | nil =>
      have := h.ended.allocated
      rw [stop_nil, ha] at this
      cases this
  | cons e es =>
      have hsize := h.tagged.1.size
      have hl : 16 ≤ e.size := h.tagged.1.large
      have hfree : e.allocated = false := h.tagged.1.allocated ▸ ha
      rw [hsize]
      -- other than the header only a footer is written, and that is a tag as well
      refine Classical.byContradiction fun hc => hi ?_
      exact ⟨x, e, mem_located_cons.2 (.inl ⟨rfl, rfl⟩), .inr ⟨hfree, by omega, by omega⟩⟩

theorem Chained.setPrevFree (h4 : 4 ≤ x) (h : r.Chained x q es) :
    (r.setPrevFree x p).Chained x p es := by
  have hle := h.le_size
  have ht : (r.setPrevFree x p).tagAt x = (r.tagAt x).withPrevFree p := tagAt_setPrevFree h4 hle
  cases es with
  | nil =>
      refine ⟨trivial, ?_⟩
      have hend := h.ended
      rw [stop_nil, lastFree] at hend ⊢
      refine ⟨?_, ?_, ?_, ?_⟩
      · rw [size_setPrevFree]
        exact hend.top
      · rw [ht, Tag.size_withPrevFree, hend.size]
      · rw [ht, Tag.allocated_withPrevFree, hend.allocated]
      · rw [ht, Tag.prevFree_withPrevFree]
  | cons e es =>
      rcases h with ⟨⟨he, htags⟩, hend⟩
      have hl : 16 ≤ e.size := he.large
      have hstop : x + e.size ≤ r.size := by
        rw [← hend.top, stop_cons]
        exact le_stop _ es
      -- only the tags of the first block change, and they end before the next header
      have hbyte : ∀ i, x + e.size ≤ i + 4 → (r.setPrevFree x p).byte i = r.byte i := by
        intro i hi
        refine Region.byte_setPrevFree (by omega) fun _ _ => ?_
        rw [he.size]
        omega
      have hrest : r.Chained (x + e.size) (!e.allocated) es := ⟨htags, hend⟩
      have hrest' := hrest.congr (s := r.setPrevFree x p) (by omega) (size_setPrevFree p)
        fun i hi => by
        refine hbyte i ?_
        rcases hi with hi | hi
        · exact (hi.bounds htags.large).1
        · omega
      refine ⟨⟨⟨he.large, ?_, ?_, ?_, fun ha => ?_⟩, hrest'.tagged⟩, hrest'.ended⟩
      · rw [ht, Tag.size_withPrevFree, he.size]
      · rw [ht, Tag.allocated_withPrevFree, he.allocated]
      · rw [ht, Tag.prevFree_withPrevFree]
      · have ha' := he.allocated
        rw [ht, ← he.size]
        exact word_setPrevFree (ha'.trans ha) (by rw [he.size]; omega) (by rw [he.size]; omega)
          (by rw [he.size]; omega)

/-- A chain that begins with a block in use was one before its first block was told. -/
theorem Chained.of_setPrevFree (h4 : 4 ≤ x) (h : (r.setPrevFree x p).Chained x p es)
    (htidy : Tidy true es) : ∃ q, r.Chained x q es := by
  have hle : x ≤ r.size := by
    rw [← size_setPrevFree (r := r) (x := x) p]
    exact h.le_size
  have ht : (r.setPrevFree x p).tagAt x = (r.tagAt x).withPrevFree p := tagAt_setPrevFree h4 hle
  refine ⟨(r.tagAt x).prevFree, ?_⟩
  cases es with
  | nil =>
      have hend := h.ended
      rw [stop_nil, lastFree] at hend
      have htop := hend.top
      have hsize := hend.size
      have halloc := hend.allocated
      rw [size_setPrevFree] at htop
      rw [ht, Tag.size_withPrevFree] at hsize
      rw [ht, Tag.allocated_withPrevFree] at halloc
      refine ⟨trivial, ?_⟩
      rw [stop_nil, lastFree]
      exact ⟨htop, hsize, halloc, rfl⟩
  | cons e es =>
      have huse := htidy.allocated
      rcases h with ⟨⟨he, htags⟩, hend⟩
      have hsize := he.size
      have halloc := he.allocated
      rw [ht, Tag.size_withPrevFree] at hsize
      rw [ht, Tag.allocated_withPrevFree] at halloc
      have hl : 16 ≤ e.size := he.large
      have hrest : (r.setPrevFree x p).Chained (x + e.size) (!e.allocated) es := ⟨htags, hend⟩
      -- a block in use has no footer, so only its header was written
      have hbyte : ∀ i, x ≤ i → r.byte i = (r.setPrevFree x p).byte i := by
        intro i hi
        refine (Region.byte_setPrevFree (by omega) fun ha _ => ?_).symm
        rw [halloc, huse] at ha
        cases ha
      have hrest' := hrest.congr (s := r) (by omega) (size_setPrevFree p).symm fun i hi => by
        refine hbyte i ?_
        rcases hi with hi | hi
        · have := (hi.bounds htags.large).1
          omega
        · have := hrest.le_size
          omega
      refine ⟨⟨⟨he.large, hsize, halloc, rfl, fun ha => ?_⟩, hrest'.tagged⟩, hrest'.ended⟩
      rw [huse] at ha
      cases ha

/-- A chain begins with any blocks whose tags are there. -/
theorem Chained.exists_append {es' : List Extent} (h : r.Chained bp p es')
    (hes : r.Tagged bp p es) :
    ∃ fs, es' = es ++ fs ∧ r.Chained (stop bp es) (lastFree p es) fs := by
  induction es generalizing bp p es' with
  | nil => exact ⟨es', rfl, h⟩
  | cons e es ih =>
      have hl : 16 ≤ e.size := hes.1.large
      cases es' with
      | nil =>
          -- the epilogue has no size, and a block does
          have hend : r.Ended bp p := h.ended
          have := hes.1.size
          rw [hend.size] at this
          omega
      | cons e' es' =>
          -- a tag tells what the block is
          have he : e' = e := by
            have hsize := h.tagged.1.size.symm.trans hes.1.size
            have halloc := h.tagged.1.allocated.symm.trans hes.1.allocated
            cases e
            cases e'
            cases hsize
            cases halloc
            rfl
          rw [he] at h ⊢
          rcases ih h.tail hes.2 with ⟨fs, hfs, hrest⟩
          exact ⟨fs, by rw [hfs]; rfl, hrest⟩

/-- The bytes have one chain only. -/
theorem Chained.unique {es' : List Extent} (h : r.Chained bp p es) (h' : r.Chained bp p es') :
    es' = es := by
  rcases h'.exists_append h.tagged with ⟨fs, rfl, hfs⟩
  cases fs with
  | nil => exact List.append_nil es
  | cons f fs =>
      -- the chain is at the end of the region already
      have hf : 16 ≤ f.size := hfs.tagged.1.large
      have hle := hfs.tail.le_size
      rw [h.stop_eq] at hle
      omega

/-- The block before a chain can always tell it that it is free, or that it is not. -/
theorem Chained.notePrevFree_eq (h4 : 4 ≤ bp) (hx : bp + (r.tagAt bp).size = x)
    (h : r.Chained x q es) : r.notePrevFree bp p = .ok (r.setPrevFree x p) := by
  have hle := h.le_size
  refine Region.notePrevFree_eq h4 hx hle ?_
  cases es with
  | nil => exact .inl h.ended.allocated
  | cons e es =>
      have hstop := h.stop_eq
      have := le_stop (x + e.size) es
      rw [stop_cons] at hstop
      rw [h.tagged.1.size]
      exact .inr (.inr (by omega))

end Region

end BoundaryTag
