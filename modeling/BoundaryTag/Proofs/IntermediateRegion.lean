import BoundaryTag.Proofs.ListSequences
import BoundaryTag.Proofs.HeaderChains

/-!
# IntermediateRegion — regions while blocks change hands

A region is drawn when its frame, its tags and its lists are those of some extents and some
sequences. Free neighbours are allowed, and free blocks may be in no list: this is what holds
between the writes of an operation.

* `holds_iff`: a region holds a plan when it is drawn, no two neighbours are free, and every free
  block is listed.
* `Drawn.remove` and `Drawn.insert`: taking a block out of its list and putting one in.
* `Drawn.replace`: writing other tags over a stretch of blocks that are in no list.
* `Kept` are the bytes that are neither tags nor links. Payloads in use and the bytes below the heap
  are among them (`kept_of_foreign`).
-/

namespace BoundaryTag

namespace Extent

/-- The free blocks are those in the lists, each in its class, except for those from `u` to `v`,
which are in none. -/
def Listed (a : Nat) (es : List Extent) (lists : Nat → List Nat) (u v : Nat) : Prop :=
  ∀ k x, x ∈ lists k ↔
    ¬(u ≤ x ∧ x < v) ∧ ∃ n, (x, ⟨n, false⟩) ∈ located a es ∧ SizeClass.of n = k

def FreeOnly (a : Nat) (es : List Extent) (lists : Nat → List Nat) : Prop :=
  ∀ k, ∀ x ∈ lists k, ∃ n, (x, ⟨n, false⟩) ∈ located a es

/-- The byte at `i` is below the heap, or in a payload in use. -/
def Foreign (lo : Nat) (es : List Extent) (i : Nat) : Prop :=
  i < lo ∨ IsPayload (lo + frameSize) es i

/-- The byte at `i` is in no tag and in no link. -/
structure Kept (lo : Nat) (es : List Extent) (i : Nat) : Prop where
  frame : ¬(lo ≤ i ∧ i < lo + frameSize - 4)
  tag : ¬IsTag (lo + frameSize) es i
  link : ¬IsLink (lo + frameSize) es i
  epilogue : ¬(stop (lo + frameSize) es ≤ i + 4 ∧ i < stop (lo + frameSize) es)

theorem kept_of_foreign {lo i : Nat} {es : List Extent} (hl : Large es) (h : Foreign lo es i) :
    Kept lo es i := by
  have hstop := le_stop (lo + frameSize) es
  simp only [frameSize] at hstop
  rcases h with h | h
  · refine ⟨by omega, fun ht => ?_, fun hk => ?_, by simp only [frameSize]; omega⟩
    · have := (ht.bounds hl).1
      simp only [frameSize] at this
      omega
    · have := (hk.bounds hl).1
      simp only [frameSize] at this
      omega
  · have hb := h.bounds
    simp only [frameSize] at hb
    exact ⟨by simp only [frameSize]; omega, fun ht => not_isPayload_of_isTag hl ht h,
      fun hk => not_isPayload_of_isLink hl hk h, by simp only [frameSize]; omega⟩

/-! ## Listed blocks -/

section Listed

variable {a x n u v u' v' : Nat} {es pre mid mid' post : List Extent} {lists : Nat → List Nat}

theorem Listed.located (h : Listed a es lists u v) {k : Nat} (hx : x ∈ lists k) :
    ∃ m, (x, ⟨m, false⟩) ∈ located a es ∧ SizeClass.of m = k ∧ ¬(u ≤ x ∧ x < v) := by
  rcases (h k x).1 hx with ⟨hskip, m, hm, hk⟩
  exact ⟨m, hm, hk, hskip⟩

theorem Listed.freeOnly (h : Listed a es lists u v) : FreeOnly a es lists := by
  intro k x hx
  rcases h.located hx with ⟨m, hm, -, -⟩
  exact ⟨m, hm⟩

/-- There are no lists but those of the classes. -/
theorem Listed.eq_nil (h : Listed a es lists u v) {k : Nat} (hk : ¬k < SizeClass.count) :
    lists k = [] := by
  refine List.eq_nil_iff_forall_not_mem.2 fun x hx => ?_
  rcases h.located hx with ⟨m, -, rfl, -⟩
  exact hk (SizeClass.of_lt_count m)

theorem FreeOnly.drop {i m : Nat} (h : FreeOnly a es lists) :
    FreeOnly a es (Plan.drop lists i m) :=
  fun k x hx => h k x (FreeLists.mem_drop.1 hx).1

theorem FreeOnly.push (h : FreeOnly a es lists) {m : Nat}
    (hx : (x, ⟨m, false⟩) ∈ Extent.located a es) : FreeOnly a es (Plan.push lists x n) := by
  intro k y hy
  rcases FreeLists.mem_push.1 hy with ⟨-, rfl⟩ | hy
  · exact ⟨m, hx⟩
  · exact h k y hy

/-- Only the blocks matter in what is said to be in no list. -/
theorem Listed.skip (h : Listed a es lists u v)
    (hskip : ∀ y m, (y, ⟨m, false⟩) ∈ Extent.located a es →
      ((u' ≤ y ∧ y < v') ↔ (u ≤ y ∧ y < v))) : Listed a es lists u' v' := by
  intro k y
  rw [h k y]
  constructor
  · rintro ⟨hy, m, hm, hk⟩
    exact ⟨fun hc => hy ((hskip y m hm).1 hc), m, hm, hk⟩
  · rintro ⟨hy, m, hm, hk⟩
    exact ⟨fun hc => hy ((hskip y m hm).2 hc), m, hm, hk⟩

theorem Listed.drop (h : Listed a es lists u v)
    (hskip : ∀ y m, (y, ⟨m, false⟩) ∈ Extent.located a es →
      ((u' ≤ y ∧ y < v') ↔ (u ≤ y ∧ y < v) ∨ y = x)) :
    Listed a es (Plan.drop lists x (x + 1)) u' v' := by
  intro k y
  rw [FreeLists.mem_drop, h k y]
  constructor
  · rintro ⟨⟨hy, m, hm, hk⟩, hyx⟩
    refine ⟨fun hc => ?_, m, hm, hk⟩
    rcases (hskip y m hm).1 hc with hc | rfl
    · exact hy hc
    · omega
  · rintro ⟨hy, m, hm, hk⟩
    have hc := hskip y m hm
    exact ⟨⟨fun hu => hy (hc.2 (.inl hu)), m, hm, hk⟩,
      fun hu => hy (hc.2 (.inr (by omega)))⟩

theorem Listed.push (h : Listed a es lists u v) (hl : Large es)
    (hx : (x, ⟨n, false⟩) ∈ Extent.located a es) (hux : u ≤ x) (hxv : x < v)
    (honly : ∀ y m, (y, ⟨m, false⟩) ∈ Extent.located a es → u ≤ y → y < v → y = x) :
    Listed a es (Plan.push lists x n) 0 0 := by
  intro k y
  rw [FreeLists.mem_push, h k y]
  constructor
  · rintro (⟨rfl, rfl⟩ | ⟨-, m, hm, hk⟩)
    · exact ⟨by omega, n, hx, rfl⟩
    · exact ⟨by omega, m, hm, hk⟩
  · rintro ⟨-, m, hm, hk⟩
    by_cases hyx : y = x
    · -- there is one block at an address, so it is in the class of its size
      subst hyx
      have hms : 16 ≤ m := hl.size hm
      have hns : 16 ≤ n := hl.size hx
      rcases located_unique (y + 4) hl hm hx (by omega) (by simp only; omega) (by omega)
        (by simp only; omega) with ⟨-, heq⟩
      cases heq
      exact .inl ⟨hk.symm, rfl⟩
    · exact .inr ⟨fun hy => hyx (honly y m hm hy.1 hy.2), m, hm, hk⟩

/-- Blocks in no list can be exchanged for others. -/
theorem Listed.replace {y : Nat} (h : Listed a (pre ++ mid ++ post) lists x y)
    (hx : stop a pre = x) (hy : stop x mid = y) (hy' : stop x mid' = y) (hl : Large mid)
    (hl' : Large mid') : Listed a (pre ++ mid' ++ post) lists x y := by
  -- a block that is not skipped is before or after the exchanged ones
  have hout : ∀ es : List Extent, Large es → stop x es = y → ∀ z e, ¬(x ≤ z ∧ z < y) →
      ((z, e) ∈ Extent.located a (pre ++ es ++ post) ↔
        (z, e) ∈ Extent.located a pre ∨ (z, e) ∈ Extent.located y post) := by
    intro es hes hend z e hz
    rw [mem_located_append, mem_located_append, stop_append, hx, hend]
    constructor
    · rintro ((hpre | hmid) | hpost)
      · exact .inl hpre
      · have hb := located_bounds hmid
        have hs := hes.size hmid
        omega
      · exact .inr hpost
    · rintro (hpre | hpost)
      · exact .inl (.inl hpre)
      · exact .inr hpost
  intro k z
  rw [h k z]
  constructor
  · rintro ⟨hz, m, hm, hk⟩
    exact ⟨hz, m, (hout mid' hl' hy' z _ hz).2 ((hout mid hl hy z _ hz).1 hm), hk⟩
  · rintro ⟨hz, m, hm, hk⟩
    exact ⟨hz, m, (hout mid hl hy z _ hz).2 ((hout mid' hl' hy' z _ hz).1 hm), hk⟩

/-- A block that comes to the end is in no list. -/
theorem Listed.concat (h : Listed a es lists 0 0) (hl : Large es) (hx : stop a es = x)
    (hn : 0 < n) :
    Listed a (es ++ [⟨n, false⟩]) lists x (x + n) := by
  intro k y
  rw [h k y]
  constructor
  · rintro ⟨-, m, hm, hk⟩
    have hb := (located_bounds hm).2
    have hs := hl.size hm
    rw [hx] at hb
    exact ⟨by omega, m, mem_located_append.2 (.inl hm), hk⟩
  · rintro ⟨hy, m, hm, hk⟩
    rcases mem_located_append.1 hm with hm | hm
    · exact ⟨by omega, m, hm, hk⟩
    · rw [hx] at hm
      rcases mem_located_cons.1 hm with ⟨rfl, -⟩ | hm
      · omega
      · cases hm

/-- A stretch can become one free block if at most the block at its front is listed. -/
theorem Listed.freeOnly_join (h : Listed a (pre ++ mid ++ post) lists u v) (hx : stop a pre = x)
    (hmid : stop x mid = x + n) (hl : Large mid)
    (honly : ∀ k, ∀ y ∈ lists k, x ≤ y → y < x + n → y = x) :
    FreeOnly a (pre ++ ⟨n, false⟩ :: post) lists := by
  intro k y hy
  rcases h.located hy with ⟨m, hm, -, -⟩
  by_cases hxy : x ≤ y ∧ y < x + n
  · rw [honly k y hy hxy.1 hxy.2, ← hx]
    exact ⟨n, mem_located_split _ _ _ _⟩
  · refine ⟨m, ?_⟩
    rw [mem_located_append, mem_located_append, stop_append, hx, hmid] at hm
    rcases hm with (hpre | hin) | hpost
    · exact mem_located_append.2 (.inl hpre)
    · have hb := located_bounds hin
      have hs := hl.size hin
      rw [hmid] at hb
      omega
    · refine mem_located_append.2 (.inr (mem_located_cons.2 (.inr ?_)))
      rw [hx]
      exact hpost

end Listed

end Extent

open Extent

def FreeLists.at (lo : Nat) : FreeLists := ⟨lo + 8, lo⟩

theorem FreeLists.sentinel_lt (lo : Nat) {k : Nat} (hk : k < SizeClass.count) :
    lo + 8 ≤ (FreeLists.at lo).sentinelAt k
      ∧ (FreeLists.at lo).sentinelAt k + 16 ≤ lo + frameSize := by
  simp only [FreeLists.sentinelAt, FreeLists.at, SizeClass.count, sentinelSize, frameSize] at *
  omega

/-- Links reach every place above the heap's base. -/
theorem FreeLists.spot_at {r : Region} {lo x : Nat} (hlo : lo < x) (hx : x + 8 ≤ r.size)
    (hspan : r.size - lo < 0x100000000) : (FreeLists.at lo).Spot r x := by
  refine ⟨hlo, ?_, hx⟩
  show x - lo < 0x100000000
  omega

/-- The sentinels of a region with a frame are in it. -/
theorem FreeLists.spot_sentinel {r : Region} {lo k : Nat} (hle : lo + frameSize ≤ r.size)
    (hk : k < SizeClass.count) : (FreeLists.at lo).Spot r ((FreeLists.at lo).sentinelAt k) := by
  have hb := sentinel_lt lo hk
  simp only [FreeLists.Spot, FreeLists.at, frameSize] at hb hle ⊢
  omega

/-- The links of the lists are in the prologue and in free blocks. -/
theorem FreeLists.touches_cases {lo i : Nat} {es : List Extent} {lists : Nat → List Nat}
    (hl : FreeOnly (lo + frameSize) es lists) (h : (FreeLists.at lo).Touches lists i) :
    (lo + 8 ≤ i ∧ i < lo + prologueSize) ∨ IsLink (lo + frameSize) es i := by
  rcases h with ⟨k, hk, y, hy, hi⟩
  rcases List.mem_cons.1 hy with rfl | hy
  · simp only [FreeLists.sentinelAt, FreeLists.at, SizeClass.count, sentinelSize, prologueSize] at *
    exact .inl (by omega)
  · rcases hl k y hy with ⟨m, hm⟩
    exact .inr ⟨y, _, hm, rfl, hi⟩

theorem Extent.Kept.not_touches {lo i : Nat} {es : List Extent} {lists : Nat → List Nat}
    (h : Kept lo es i) (hl : FreeOnly (lo + frameSize) es lists) :
    ¬(FreeLists.at lo).Touches lists i := by
  intro ht
  rcases FreeLists.touches_cases hl ht with hi | hi
  · have := h.frame
    simp only [prologueSize, frameSize] at this hi
    omega
  · exact h.link hi

namespace Region

/-- Frame, tags and lists are those of some extents and some sequences. -/
structure Drawn (r : Region) (lo : Nat) (es : List Extent) (lists : Nat → List Nat) : Prop where
  prologue : (r.tagAt (lo + 8)).size = prologueSize ∧ (r.tagAt (lo + 8)).allocated = true
  footer : r.word (lo + prologueSize) = (r.tagAt (lo + 8)).word
  chained : r.Chained (lo + frameSize) false es
  lists : (FreeLists.at lo).Represents r lists
  aligned : lo % 8 = 0
  span : r.size - lo < 0x100000000

variable {r s : Region} {lo x y n : Nat} {es pre mid mid' post : List Extent}
  {lists : Nat → List Nat} {u v : Nat}

/-- The tags of the frame stay when nothing but sentinels is written there. -/
theorem frame_congr
    (hpro : (r.tagAt (lo + 8)).size = prologueSize ∧ (r.tagAt (lo + 8)).allocated = true)
    (hfoot : r.word (lo + prologueSize) = (r.tagAt (lo + 8)).word)
    (hbyte : ∀ i, i + 4 < lo + frameSize → ¬(lo + 8 ≤ i ∧ i < lo + prologueSize) →
      s.byte i = r.byte i) :
    ((s.tagAt (lo + 8)).size = prologueSize ∧ (s.tagAt (lo + 8)).allocated = true)
      ∧ s.word (lo + prologueSize) = (s.tagAt (lo + 8)).word := by
  simp only [frameSize, prologueSize] at hbyte hfoot ⊢
  have htag : s.tagAt (lo + 8) = r.tagAt (lo + 8) :=
    tagAt_congr (by omega) fun i hi hi' => hbyte i (by omega) (by omega)
  refine ⟨htag ▸ hpro, ?_⟩
  rw [htag, ← hfoot]
  exact word_congr fun i hi hi' => hbyte i (by omega) (by omega)

namespace Drawn

theorem large (h : r.Drawn lo es lists) : Large es := h.chained.tagged.large

theorem stop_eq (h : r.Drawn lo es lists) : stop (lo + frameSize) es = r.size := h.chained.stop_eq

theorem le_size (h : r.Drawn lo es lists) : lo + frameSize ≤ r.size := h.chained.le_size

/-- What is known about every block. -/
theorem located {e : Extent} (h : r.Drawn lo es lists) (hx : (x, e) ∈ located (lo + frameSize) es) :
    lo + frameSize ≤ x ∧ x + e.size ≤ r.size ∧ x % 8 = 0 ∧ 16 ≤ e.size ∧ e.size % 8 = 0 := by
  have hb := located_bounds hx
  have hm := h.chained.tagged.located_mod hx
  have ha := h.aligned
  rw [h.stop_eq] at hb
  refine ⟨hb.1, hb.2, ?_, h.large.size hx, h.chained.tagged.size_mod e (mem_of_mem_located hx)⟩
  rw [hm]
  simp only [frameSize]
  omega

theorem tagsAt {e : Extent} (h : r.Drawn lo es lists)
    (hx : (x, e) ∈ Extent.located (lo + frameSize) es) : ∃ p, r.TagsAt x p e :=
  h.chained.tagged.at hx

/-- The header of a block can be read. -/
theorem header {e : Extent} (h : r.Drawn lo es lists)
    (hx : (x, e) ∈ Extent.located (lo + frameSize) es) : r.header x = .ok (r.tagAt x) := by
  have := h.located hx
  simp only [frameSize] at this
  exact header_eq (by omega) (by omega)

/-- Any block has room for links, and links reach it. -/
theorem spot {e : Extent} (h : r.Drawn lo es lists)
    (hx : (x, e) ∈ Extent.located (lo + frameSize) es) : (FreeLists.at lo).Spot r x := by
  have := h.located hx
  have := h.span
  simp only [frameSize] at *
  exact FreeLists.spot_at (by omega) (by omega) (by omega)

/-- Blocks are apart from the sentinels, and from each other. -/
theorem fresh {e : Extent} (h : r.Drawn lo es lists)
    (hl : Listed (lo + frameSize) es lists u v)
    (hx : (x, e) ∈ Extent.located (lo + frameSize) es) (hu : u ≤ x) (hv : x < v) :
    (FreeLists.at lo).Fresh lists x := by
  intro k hk y hy
  have hxs := h.located hx
  rcases List.mem_cons.1 hy with rfl | hy
  · have := (FreeLists.sentinel_lt lo hk).2
    omega
  · rcases (hl k y).1 hy with ⟨hskip, m, hym, -⟩
    have hys := h.located hym
    have hne : y ≠ x := by
      rintro rfl
      exact hskip ⟨hu, hv⟩
    have := located_beside h.large hx hym hne
    omega

/-- Nothing but the lists depends on links. -/
theorem relist {lists' : Nat → List Nat} (h : r.Drawn lo es lists)
    (hl : FreeOnly (lo + frameSize) es lists') (hsize : s.size = r.size)
    (hlists : (FreeLists.at lo).Represents s lists')
    (hbyte : ∀ i, ¬(FreeLists.at lo).Touches lists' i → s.byte i = r.byte i) :
    s.Drawn lo es lists' := by
  have hlink : ∀ i, IsLink (lo + frameSize) es i → lo + frameSize ≤ i ∧ i + 8 < r.size := by
    intro i hi
    have hb := hi.bounds h.large
    rw [h.stop_eq] at hb
    exact hb
  have hout : ∀ i, ¬(lo + 8 ≤ i ∧ i < lo + prologueSize) → ¬IsLink (lo + frameSize) es i →
      s.byte i = r.byte i := by
    intro i hi hil
    exact hbyte i fun ht => (FreeLists.touches_cases hl ht).elim hi hil
  have hframe : ∀ i, i < lo + frameSize → ¬(lo + 8 ≤ i ∧ i < lo + prologueSize) →
      s.byte i = r.byte i := by
    intro i hi hi'
    -- in the frame, only the sentinels are links
    exact hout i hi' fun hil => by have := (hlink i hil).1; omega
  rcases frame_congr h.prologue h.footer fun i hi hi' => hframe i (by omega) hi' with
    ⟨hprologue, hfooter⟩
  refine ⟨hprologue, hfooter, ?_, hlists, h.aligned, hsize ▸ h.span⟩
  · refine h.chained.congr (by simp only [frameSize]; omega) hsize fun i hi => hout i ?_ ?_
    · have hle := h.le_size
      rcases hi with hi | hi
      · have := (hi.bounds h.large).1
        simp only [frameSize, prologueSize] at *
        omega
      · simp only [frameSize, prologueSize] at *
        omega
    · intro hil
      rcases hi with hi | hi
      · exact not_isLink_of_isTag h.large hi hil
      · have := (hlink i hil).2
        omega

/-- A block leaves its list. -/
theorem remove {k : Nat} (h : r.Drawn lo es lists) (hl : Listed (lo + frameSize) es lists u v)
    (hx : x ∈ lists k) :
    ∃ s, (FreeLists.at lo).remove r x = .ok s ∧ s.size = r.size
      ∧ s.Drawn lo es (Plan.drop lists x (x + 1))
      ∧ ∀ i, ¬(FreeLists.at lo).Touches (Plan.drop lists x (x + 1)) i → s.byte i = r.byte i := by
  have hk : k < SizeClass.count := by
    rcases hl.located hx with ⟨m, -, rfl, -⟩
    exact SizeClass.of_lt_count m
  rcases h.lists.remove hk hx with ⟨s, hs, hsize, hlists, hbyte⟩
  exact ⟨s, hs, hsize, h.relist hl.freeOnly.drop hsize hlists hbyte, hbyte⟩

/-- A block that is in no list comes into the one of its class. -/
theorem insert {e : Extent} (h : r.Drawn lo es lists) (hl : Listed (lo + frameSize) es lists u v)
    (hx : (x, e) ∈ Extent.located (lo + frameSize) es) (he : e.allocated = false) (hu : u ≤ x)
    (hv : x < v) :
    ∃ s, (FreeLists.at lo).insert r x n = .ok s ∧ s.size = r.size
      ∧ s.Drawn lo es (Plan.push lists x n)
      ∧ ∀ i, ¬(FreeLists.at lo).Touches (Plan.push lists x n) i → s.byte i = r.byte i := by
  rcases h.lists.insert (h.spot hx) (h.fresh hl hx hu hv) with ⟨s, hs, hsize, hlists, hbyte⟩
  have hx' : (x, ⟨e.size, false⟩) ∈ Extent.located (lo + frameSize) es := he ▸ hx
  exact ⟨s, hs, hsize, h.relist (hl.freeOnly.push hx') hsize hlists hbyte, hbyte⟩

/-- Other tags are written over blocks that are in no list. -/
theorem replace (h : r.Drawn lo (pre ++ mid ++ post) lists)
    (hl : Listed (lo + frameSize) (pre ++ mid ++ post) lists x y)
    (hx : stop (lo + frameSize) pre = x) (hy : stop x mid = y) (hy' : stop x mid' = y)
    (hsize : s.size = r.size) (hmid : s.Tagged x (lastFree false pre) mid')
    (hpost : s.Chained y (lastFree (lastFree false pre) mid') post)
    (hbyte : ∀ i, i + 4 < x ∨ (y ≤ i ∧ ¬IsTag y post i ∧ i + 4 < r.size) →
      s.byte i = r.byte i) :
    s.Drawn lo (pre ++ mid' ++ post) lists
      ∧ Listed (lo + frameSize) (pre ++ mid' ++ post) lists x y := by
  have hchain := h.chained
  rw [List.append_assoc] at hchain
  rcases Chained.append.1 hchain with ⟨hpre, hrest⟩
  have hle : lo + 128 ≤ x := hx ▸ le_stop (lo + frameSize) pre
  have hlmid := (Large.append.1 (Large.append.1 h.large).1).2
  rcases frame_congr h.prologue h.footer fun i hi _ =>
    hbyte i (.inl (Nat.lt_of_lt_of_le hi hle)) with ⟨hprologue, hfooter⟩
  refine ⟨⟨hprologue, hfooter, ?_, ?_, h.aligned, hsize ▸ h.span⟩,
    hl.replace hx hy hy' hlmid hmid.large⟩
  · have hpre' := hpre.congr (s := s) (by simp only [frameSize]; omega) fun i hi =>
      hbyte i (.inl (hx ▸ (hi.bounds hpre.large).2))
    refine Chained.append.2 ⟨Tagged.append.2 ⟨hpre', hx ▸ hmid⟩, ?_⟩
    rw [stop_append, hx, hy', lastFree_append]
    exact hpost
  · refine h.lists.congr (Nat.le_of_eq hsize.symm) fun k hk z hz i hi hi' => hbyte i ?_
    rcases List.mem_cons.1 hz with rfl | hz
    -- sentinels are below the blocks, and a listed block is not one of those that are replaced
    · left
      simp only [FreeLists.sentinelAt, FreeLists.at, SizeClass.count, sentinelSize] at *
      omega
    · rcases hl.located hz with ⟨m, hm, -, hskip⟩
      have hms := h.large.size hm
      have hlink : IsLink (lo + frameSize) (pre ++ mid ++ post) i := ⟨z, _, hm, rfl, hi, hi'⟩
      have hend := (hlink.bounds h.large).2
      rw [h.stop_eq] at hend
      have hmid : stop (lo + frameSize) (pre ++ mid) = y := by rw [stop_append, hx, hy]
      simp only at hms
      rcases mem_located_append.1 hm with hm' | hm'
      · rcases mem_located_append.1 hm' with hm' | hm'
        · have := (located_bounds hm').2
          simp only [hx] at this
          exact .inl (by omega)
        · have hb := located_bounds hm'
          simp only [hx, hy] at hb
          omega
      · rw [hmid] at hm'
        refine .inr ⟨?_, fun ht => ?_, by omega⟩
        · have := (located_bounds hm').1
          omega
        · exact not_isLink_of_isTag h.large (IsTag.append.2 (.inr (hmid ▸ ht))) hlink

end Drawn

/-! ## Between operations -/

/-- A drawn region without free neighbours, all free blocks of which are listed. -/
structure Settled (r : Region) (lo : Nat) (es : List Extent) (lists : Nat → List Nat) : Prop where
  drawn : r.Drawn lo es lists
  tidy : Tidy false es
  listed : Listed (lo + frameSize) es lists 0 0

/-- Payloads can hold anything. -/
theorem Settled.congr (h : r.Settled lo es lists) (hsize : s.size = r.size)
    (hbyte : ∀ i, ¬IsPayload (lo + frameSize) es i → s.byte i = r.byte i) :
    s.Settled lo es lists := by
  have hd := h.drawn
  -- payloads begin after the frame, and no tag and no link is in one
  have hframe : ∀ i, i < lo + frameSize → s.byte i = r.byte i := by
    intro i hi
    refine hbyte i fun hp => ?_
    have := hp.bounds.1
    omega
  rcases frame_congr hd.prologue hd.footer fun i hi _ => hframe i (by omega) with
    ⟨hprologue, hfooter⟩
  refine ⟨⟨hprologue, hfooter, ?_, ?_, hd.aligned, hsize ▸ hd.span⟩, h.tidy, h.listed⟩
  · refine hd.chained.congr (by simp only [frameSize]; omega) hsize fun i hi => hbyte i fun hp => ?_
    rcases hi with hi | hi
    · exact not_isPayload_of_isTag hd.large hi hp
    · have := hp.bounds.2
      rw [hd.stop_eq] at this
      omega
  · refine hd.lists.congr (Nat.le_of_eq hsize.symm) fun k hk y hy i hi hi' => hbyte i fun hp => ?_
    have ht : (FreeLists.at lo).Touches lists i := ⟨k, hk, y, hy, hi, hi'⟩
    rcases FreeLists.touches_cases h.listed.freeOnly ht with hc | hc
    · have := hp.bounds.1
      simp only [prologueSize, frameSize] at *
      omega
    · exact not_isPayload_of_isLink hd.large hc hp

/-- Free blocks of the right classes do not overlap, and links reach them. -/
theorem represents_of_listed (hchain : r.Chained (lo + frameSize) false es)
    (hspan : r.size - lo < 0x100000000) (hl : Listed (lo + frameSize) es lists 0 0)
    (hstrung : ∀ k < SizeClass.count,
      (FreeLists.at lo).Strung r ((FreeLists.at lo).sentinelAt k) (lists k))
    (honce : ∀ k, (lists k).Nodup) : (FreeLists.at lo).Represents r lists := by
  have hlarge := hchain.tagged.large
  have hsent : ∀ k < SizeClass.count, lo + 8 ≤ (FreeLists.at lo).sentinelAt k
      ∧ (FreeLists.at lo).sentinelAt k + 16 ≤ lo + frameSize :=
    fun k hk => FreeLists.sentinel_lt lo hk
  have hnode : ∀ k, ∀ y ∈ lists k, lo + frameSize ≤ y ∧ y + 16 ≤ r.size := by
    intro k y hy
    rcases hl.located hy with ⟨m, hm, -, -⟩
    have hb := located_bounds hm
    have hs := hlarge.size hm
    rw [hchain.stop_eq] at hb
    exact ⟨hb.1, by omega⟩
  refine ⟨hstrung, fun k hk => ?_, fun j hj k hk y hy z hz => ?_, fun k hk y hy => ?_⟩
  · -- a sentinel is below all blocks
    refine List.nodup_cons.2 ⟨fun hm => ?_, honce k⟩
    have := hnode k _ hm
    have := hsent k hk
    omega
  · have hsj := hsent j hj
    have hsk := hsent k hk
    rcases List.mem_cons.1 hy with rfl | hy <;> rcases List.mem_cons.1 hz with rfl | hz
    · simp only [FreeLists.sentinelAt, sentinelSize] at *
      omega
    · have := hnode k z hz
      omega
    · have := hnode j y hy
      omega
    · -- the class follows from the size, so a block cannot be in two lists
      rcases hl.located hy with ⟨m, hm, rfl, -⟩
      rcases hl.located hz with ⟨n, hn, rfl, -⟩
      have hms := hlarge.size hm
      have hns := hlarge.size hn
      simp only at hms hns
      rcases located_apart hlarge hm hn with ⟨rfl, heq⟩ | hle | hle
      · cases heq
        exact .inl ⟨rfl, rfl⟩
      · simp only at hle
        omega
      · simp only at hle
        omega
  · have hle := hchain.le_size
    show lo < y ∧ y - lo < 0x100000000 ∧ y + 8 ≤ r.size
    rcases List.mem_cons.1 hy with rfl | hy
    · have := hsent k hk
      omega
    · have := hnode k y hy
      simp only [frameSize] at *
      omega

/-! ## Regions that hold a plan -/

section Holds

variable {p : Plan}

theorem listed_iff :
    Listed (p.lo + frameSize) p.extents p.lists 0 0 ↔ ∀ k x, x ∈ p.lists k ↔ p.FreeIn k x := by
  refine forall_congr' fun k => forall_congr' fun x => iff_congr Iff.rfl ?_
  constructor
  · rintro ⟨-, n, hn, hk⟩
    exact ⟨_, hn, rfl, hk⟩
  · rintro ⟨⟨n, _⟩, hn, rfl, hk⟩
    exact ⟨by omega, n, hn, hk⟩

theorem Holds.chained (h : r.Holds p) : r.Chained (p.lo + frameSize) false p.extents :=
  (carries_iff.1 h.carries).1

theorem Holds.tidy (h : r.Holds p) : Tidy false p.extents := (carries_iff.1 h.carries).2

theorem Holds.listed (h : r.Holds p) : Listed (p.lo + frameSize) p.extents p.lists 0 0 :=
  listed_iff.2 h.exact

/-- A region holds a plan when it is settled with its extents and lists. -/
theorem holds_iff (hlo : p.lo % 8 = 0) (hspan : r.size - p.lo < 0x100000000) :
    r.Holds p ↔ r.Settled p.lo p.extents p.lists := by
  constructor
  · intro h
    exact ⟨⟨h.prologue, h.footer, h.chained, represents_of_listed h.chained hspan h.listed h.threads
      h.once, hlo, hspan⟩, h.tidy, h.listed⟩
  · rintro ⟨h, htidy, hl⟩
    refine ⟨h.prologue, h.footer, carries_iff.2 ⟨h.chained, htidy⟩, h.lists.strung, fun k => ?_,
      listed_iff.1 hl⟩
    by_cases hk : k < SizeClass.count
    · exact (List.nodup_cons.1 (h.lists.nodup k hk)).2
    · rw [hl.eq_nil hk]
      exact List.nodup_nil

theorem Settled.holds (h : r.Settled lo es lists) : r.Holds ⟨lo, es, lists⟩ :=
  (holds_iff h.drawn.aligned h.drawn.span).2 h

end Holds

end Region

end BoundaryTag
