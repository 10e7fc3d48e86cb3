import BoundaryTag.FreeLists.Placement
import BoundaryTag.Proofs.PlainTags
import BoundaryTag.Proofs.PlanResults

/-!
# BlockPlacement — free blocks that come into use

What `place` does to a region that is settled.

* `Kept.header`, `Kept.tag_right` and `Kept.footer` say where a kept byte is not.
* `mem_located_first`, `mem_located_second`, `eq_of_located_parts` and `mem_heads_parts`: the two
  parts of a block that is split.
* `carve` writes the tags of these parts, `Divides` says that there is room for them.
* `Drawn.exchange`: other blocks take the place of some that are in no list, and the block after
  them is told whether the last of them is free.
* `Settled.place`: the front of a free block is in use, and the rest is free or part of it, as the
  plan says.
-/

namespace BoundaryTag

open Extent

namespace Extent

variable {lo i : Nat} {es mid post : List Extent}

/-- A byte that is kept is not in the header where some of the blocks end. -/
theorem Kept.header (h : Kept lo (es ++ post) i) :
    ¬(stop (lo + frameSize) es ≤ i + 4 ∧ i < stop (lo + frameSize) es) := by
  intro hi
  cases post with
  | nil =>
      have := h.epilogue
      rw [List.append_nil] at this
      exact this hi
  | cons e post => exact h.tag ⟨_, e, mem_located_split _ es e post, .inl hi⟩

theorem Kept.tag_right (h : Kept lo (es ++ post) i) :
    ¬IsTag (stop (lo + frameSize) es) post i := fun ht => h.tag (IsTag.append.2 (.inr ht))

/-- A byte that is kept is not in the footer of a free block. -/
theorem Kept.footer {x n : Nat} (h : Kept lo es i)
    (hx : (x, ⟨n, false⟩) ∈ located (lo + frameSize) es) :
    ¬(x + n ≤ i + 8 ∧ i + 4 < x + n) := fun hi => h.tag ⟨x, _, hx, .inr ⟨rfl, hi⟩⟩

/-! ## The parts of a block -/

variable {a x y m need left : Nat} {e f : Extent} {pre : List Extent}

theorem mem_located_first (hx : stop a pre = x) : (x, e) ∈ located a (pre ++ e :: es ++ post) := by
  rw [List.append_assoc, ← hx]
  exact mem_located_split _ _ _ _

theorem mem_located_second (hx : stop a pre = x) :
    (x + e.size, f) ∈ located a (pre ++ [e, f] ++ post) := by
  rw [List.append_assoc]
  refine mem_located_append.2 (.inr ?_)
  rw [hx]
  exact mem_located_cons.2 (.inr (mem_located_cons.2 (.inl ⟨rfl, rfl⟩)))

/-- Where the front of a block is in use, the rest is the only free block. -/
theorem eq_of_located_parts (hl : Large (pre ++ [⟨need, true⟩, ⟨left, false⟩] ++ post))
    (hx : stop a pre = x)
    (hy : (y, ⟨m, false⟩) ∈ located a (pre ++ [⟨need, true⟩, ⟨left, false⟩] ++ post))
    (hxy : x ≤ y) (hyx : y < x + (need + left)) : y = x + need := by
  have hfront : (x, ⟨need, true⟩) ∈ located a (pre ++ [⟨need, true⟩, ⟨left, false⟩] ++ post) :=
    mem_located_first hx
  by_cases hyn : y < x + need
  · have heq := (located_inside hl hfront hy hxy hyn).2
    cases heq
  · have hrest : (x + need, ⟨left, false⟩) ∈ located a
        (pre ++ [⟨need, true⟩, ⟨left, false⟩] ++ post) := mem_located_second hx
    exact (located_inside hl hrest hy (by omega) (by simp only; omega)).1.symm

/-- The only header that a split brings is that of the rest. -/
theorem mem_heads_parts (hx : stop a pre = x)
    (hy : y ∈ heads a (pre ++ [⟨need, true⟩, ⟨left, false⟩] ++ post)) :
    y ∈ heads a (pre ++ ⟨need + left, false⟩ :: post) ∨ y = x + need := by
  rw [List.append_assoc, mem_heads_append, hx] at hy
  rw [mem_heads_append, hx, mem_heads_cons]
  rcases hy with hy | hy
  · exact .inl (.inl hy)
  · rcases mem_heads_cons.1 hy with rfl | hy
    · exact .inl (.inr (.inl rfl))
    · rcases mem_heads_cons.1 hy with rfl | hy
      · exact .inr rfl
      · exact .inl (.inr (.inr (Nat.add_assoc x need left ▸ hy)))

end Extent

namespace Region

variable {r s : Region} {lo bp x y n m need left : Nat} {es pre mid mid' post : List Extent}
  {lists : Nat → List Nat} {u v u' v' b f g z : Nat} {p : Bool}

/-! ## Writing tags -/

theorem tagsAt_setFree (h4 : 4 ≤ bp) (hn : minBlock ≤ n) (h8 : n % 8 = 0) (hlt : n < 0x100000000)
    (h : bp + n ≤ r.size + 4) : (r.setFree bp n p).TagsAt bp p ⟨n, false⟩ := by
  have hn' : 16 ≤ n := hn
  have ht : (r.setFree bp n p).tagAt bp = Tag.make n false p := tagAt_setFree h4 (by omega) h
  refine ⟨hn, ?_, ?_, ?_, fun _ => ?_⟩
  · rw [ht, Tag.size_make _ _ h8 hlt]
  · rw [ht, Tag.allocated_make _ _ h8 hlt]
  · rw [ht, Tag.prevFree_make _ _ h8 hlt]
  · rw [ht, word_setFree (by omega) h]

theorem tagsAt_setAllocated (h4 : 4 ≤ bp) (hn : minBlock ≤ n) (h8 : n % 8 = 0)
    (hlt : n < 0x100000000) (h : bp ≤ r.size) :
    (r.setAllocated bp n p).TagsAt bp p ⟨n, true⟩ := by
  have ht : (r.setAllocated bp n p).tagAt bp = Tag.make n true p := tagAt_setAllocated h4 h
  refine ⟨hn, ?_, ?_, ?_, nofun⟩
  · rw [ht, Tag.size_make _ _ h8 hlt]
  · rw [ht, Tag.allocated_make _ _ h8 hlt]
  · rw [ht, Tag.prevFree_make _ _ h8 hlt]

/-- The tags of a block of `need` bytes in use, and of a free one in the `left` bytes after it. -/
def carve (r : Region) (bp need left : Nat) : Region :=
  (r.setAllocated bp need false).setFree (bp + need) left false

/-- After the frame of a heap there is room for two blocks of these sizes. -/
structure Divides (r : Region) (lo bp need left : Nat) : Prop where
  after : lo + 128 ≤ bp
  aligned : bp % 8 = 0
  front : 16 ≤ need
  rest : 16 ≤ left
  front_mod : need % 8 = 0
  rest_mod : left % 8 = 0
  lt : need + left < 0x100000000
  le_size : bp + (need + left) ≤ r.size

@[simp] theorem size_carve : (r.carve bp need left).size = r.size := by
  rw [carve, size_setFree, size_setAllocated]

namespace Divides

theorem writes_eq (h : r.Divides lo bp need left) :
    r.writeAllocated bp need false = .ok (r.setAllocated bp need false)
      ∧ (r.setAllocated bp need false).writeFree (bp + need) left false
        = .ok (r.carve bp need left) := by
  obtain ⟨hlo, -, hneed, hleft, hneed8, hleft8, hlt, hle⟩ := h
  exact ⟨writeAllocated_eq (by omega) hneed8 (by omega) (by omega),
    writeFree_eq (by omega) hleft8 (by omega) (by omega) (by rw [size_setAllocated]; omega)⟩

theorem tagged (h : r.Divides lo bp need left) :
    (r.carve bp need left).Tagged bp false [⟨need, true⟩, ⟨left, false⟩] := by
  obtain ⟨hlo, -, hneed, hleft, hneed8, hleft8, hlt, hle⟩ := h
  -- the tags of the rest are written last, and not over the header of the front
  have hfront : (r.carve bp need left).TagsAt bp false ⟨need, true⟩ :=
    (tagsAt_setAllocated (by omega) hneed hneed8 (by omega) (by omega)).congr (by omega)
      (fun i hi hi' => byte_setFree (by omega) (by omega)) nofun
  have hrest : (r.carve bp need left).TagsAt (bp + need) false ⟨left, false⟩ :=
    tagsAt_setFree (by omega) hleft hleft8 (by omega) (by rw [size_setAllocated]; omega)
  exact ⟨hfront, hrest, trivial⟩

theorem byte_eq {i : Nat} (h : r.Divides lo bp need left) (hfront : ¬(bp ≤ i + 4 ∧ i < bp))
    (hrest : ¬(bp + need ≤ i + 4 ∧ i < bp + need))
    (hfoot : ¬(bp + need + left ≤ i + 8 ∧ i + 4 < bp + need + left)) :
    (r.carve bp need left).byte i = r.byte i := by
  obtain ⟨hlo, -, hneed, hleft, -, -, -, -⟩ := h
  rw [carve, byte_setFree (by omega) (by omega), byte_setAllocated (by omega)]

theorem keepsPlain (h : r.Divides lo bp need left) : r.KeepsPlain (r.carve bp need left) lo := by
  obtain ⟨hlo, h8, hneed, hleft, hneed8, hleft8, hlt, hle⟩ := h
  exact (keepsPlain_setAllocated hlo h8 hneed8 (by omega) (by omega)).trans
    (keepsPlain_setFree (Nat.le_add_right_of_le hlo) (by omega) hleft hleft8 (by omega)
      (by rw [size_setAllocated]; omega))

theorem plain_rest (h : r.Divides lo bp need left) :
    ((r.carve bp need left).tagAt (bp + need)).Plain := by
  obtain ⟨hlo, -, hneed, hleft, -, hleft8, hlt, hle⟩ := h
  rw [carve, tagAt_setFree (by omega) (by omega) (by rw [size_setAllocated]; omega)]
  exact Tag.plain_make _ _ hleft8 (by omega)

end Divides

namespace Drawn

/-- Tags are written over blocks that are in no list, and the block after them is told about the
last of them. -/
theorem exchange (h : r.Drawn lo (pre ++ mid ++ post) lists)
    (hl : Listed (lo + frameSize) (pre ++ mid ++ post) lists x y)
    (hx : stop (lo + frameSize) pre = x) (hy : stop x mid = y) (hy' : stop x mid' = y)
    (hsize : s.size = r.size) (hmid : s.Tagged x (lastFree false pre) mid')
    (hbyte : ∀ i, i + 4 < x ∨ y ≤ i + 4 → s.byte i = r.byte i)
    (hp : lastFree (lastFree false pre) mid' = p) :
    (s.setPrevFree y p).Drawn lo (pre ++ mid' ++ post) lists
      ∧ Listed (lo + frameSize) (pre ++ mid' ++ post) lists x y
      ∧ (∀ bp, 4 ≤ bp → bp + (s.tagAt bp).size = y →
          s.notePrevFree bp p = .ok (s.setPrevFree y p))
      ∧ ∀ i, ¬(y ≤ i + 4 ∧ i < y) → ¬IsTag y post i → (s.setPrevFree y p).byte i = s.byte i := by
  have hlo : lo + 128 ≤ x := hx ▸ le_stop (lo + frameSize) pre
  have hxy : x ≤ y := hy ▸ le_stop x mid
  have hpost := (Chained.append.1 h.chained).2
  rw [stop_append, hx, hy] at hpost
  have hyr := hpost.le_size
  have hlarge := hpost.tagged.large
  -- the blocks behind are as they were, but for the one that is told
  have hpost' : s.Chained y (lastFree false (pre ++ mid)) post := by
    refine hpost.congr (by omega) hsize fun i hi => hbyte i (.inr ?_)
    rcases hi with hi | hi
    · exact (hi.bounds hlarge).1
    · omega
  have hkeep : ∀ i, ¬(y ≤ i + 4 ∧ i < y) → ¬IsTag y post i →
      (s.setPrevFree y p).byte i = s.byte i :=
    fun i hi ht => hpost'.byte_setPrevFree (by omega) hi ht
  have hbelow : ∀ i, i + 4 < y → (s.setPrevFree y p).byte i = s.byte i := by
    intro i hi
    refine hkeep i (by omega) fun ht => ?_
    have := (ht.bounds hlarge).1
    omega
  have hmid' : (s.setPrevFree y p).Tagged x (lastFree false pre) mid' := by
    refine hmid.congr (by omega) fun i hi => hbelow i ?_
    have := (hi.bounds hmid.large).2
    rw [hy'] at this
    exact this
  have hdrawn := h.replace hl hx hy hy' (by rw [size_setPrevFree, hsize]) hmid'
    (hp ▸ hpost'.setPrevFree (by omega)) fun i hi => by
      rcases hi with hi | ⟨hi, ht, -⟩
      · rw [hbelow i (by omega), hbyte i (.inl hi)]
      · rw [hkeep i (by omega) ht, hbyte i (.inr (by omega))]
  exact ⟨hdrawn.1, hdrawn.2, fun bp h4 hbp => hpost'.notePrevFree_eq h4 hbp, hkeep⟩

end Drawn

namespace Settled

theorem large (h : r.Settled lo es lists) : Large es := h.drawn.large

/-- What is known about a free block: it is in its list, the block before it is in use, and it
can leave. -/
theorem unlist (h : r.Settled lo (pre ++ ⟨n, false⟩ :: post) lists)
    (hx : stop (lo + frameSize) pre = x) :
    r.header x = .ok (r.tagAt x) ∧ r.TagsAt x false ⟨n, false⟩ ∧ x + n ≤ r.size
      ∧ lo + frameSize ≤ x
      ∧ ∃ s, (FreeLists.at lo).remove r x = .ok s ∧ s.size = r.size
        ∧ s.Drawn lo (pre ++ [⟨n, false⟩] ++ post) (Plan.drop lists x (x + 1))
        ∧ Listed (lo + frameSize) (pre ++ [⟨n, false⟩] ++ post) (Plan.drop lists x (x + 1))
          x (x + n)
        ∧ ∀ i, ¬(FreeLists.at lo).Touches (Plan.drop lists x (x + 1)) i → s.byte i = r.byte i := by
  have hmem : (x, ⟨n, false⟩) ∈ Extent.located (lo + frameSize) (pre ++ ⟨n, false⟩ :: post) :=
    hx ▸ mem_located_split _ _ _ _
  have hb := h.drawn.located hmem
  simp only at hb
  have hfree : lastFree false pre = false := (Tidy.append.1 h.tidy).2.1 rfl
  have htag := (Tagged.append.1 h.drawn.chained.tagged).2.1
  rw [hx, hfree] at htag
  rcases h.drawn.remove h.listed ((h.listed _ x).2 ⟨by omega, n, hmem, rfl⟩) with
    ⟨s, hs, hsize, hdrawn, hbyte⟩
  have hsplit : pre ++ [⟨n, false⟩] ++ post = pre ++ ⟨n, false⟩ :: post := by simp
  refine ⟨h.drawn.header hmem, htag, hb.2.1, hb.1, s, hs, hsize, hsplit ▸ hdrawn, ?_, hbyte⟩
  rw [hsplit]
  refine h.listed.drop fun y m hy => ?_
  by_cases hyx : y = x
  · omega
  · have := located_beside h.large hmem hy hyx
    omega

/-- The front of a free block comes into use, and the rest can be a block of its own. -/
theorem place_split (h : r.Settled lo (pre ++ ⟨need + left, false⟩ :: post) lists)
    (hx : stop (lo + frameSize) pre = x) (hneed : minBlock ≤ need) (h8 : need % 8 = 0)
    (hleft : minBlock ≤ left) :
    ∃ s, (FreeLists.at lo).place r x need = .ok (s, [.split x need left])
      ∧ s.size = r.size
      ∧ s.Settled lo (pre ++ [⟨need, true⟩, ⟨left, false⟩] ++ post)
          (Plan.push (Plan.drop lists x (x + 1)) (x + need) left)
      ∧ (r.Neat lo → s.Neat lo)
      ∧ ∀ i, Kept lo (pre ++ [⟨need, true⟩, ⟨left, false⟩] ++ post) i → s.byte i = r.byte i := by
  rcases h.unlist hx with ⟨hhead, htag, hn, hlo, s₁, hs₁, hsize₁, h₁, hl₁, hbyte₁⟩
  have hx8 : x % 8 = 0 := (h.drawn.located (hx ▸ mem_located_split _ _ _ _)).2.2.1
  have hmod : (need + left) % 8 = 0 := htag.size_mod
  have hr := r.size_lt
  rcases Tidy.append.1 h.tidy with ⟨htidy, hfree, hafter⟩
  -- the tags of both parts are written before the rest is listed
  have hdiv : s₁.Divides lo x need left :=
    ⟨hlo, hx8, hneed, hleft, h8, by omega, htag.size_lt, by omega⟩
  have hneed' : 16 ≤ need := hneed
  have hleft' : 16 ≤ left := hleft
  have hend : stop x [⟨need, true⟩, ⟨left, false⟩] = x + (need + left) := Nat.add_assoc x need left
  have hmid :
      (s₁.carve x need left).Tagged x (lastFree false pre) [⟨need, true⟩, ⟨left, false⟩] := by
    rw [hfree rfl]
    exact hdiv.tagged
  rcases h₁.exchange (p := true) hl₁ hx rfl hend size_carve hmid
    (fun i hi => hdiv.byte_eq (by omega) (by omega) (by omega)) rfl with ⟨h₂, hl₂, hnote, hkeep⟩
  -- the rest is the only free block that is not listed
  have hrest : (x + need, ⟨left, false⟩) ∈ Extent.located (lo + frameSize)
      (pre ++ [⟨need, true⟩, ⟨left, false⟩] ++ post) := mem_located_second hx
  rcases h₂.insert (n := left) hl₂ hrest rfl (by omega) (by omega) with
    ⟨s₃, hs₃, hsize₃, h₃, hbyte₃⟩
  have hl₃ := hl₂.push h₂.large hrest (by omega) (by omega) fun y m =>
    eq_of_located_parts h₂.large hx
  have hplain : (s₁.carve x need left).KeepsPlain s₃ lo :=
    (keepsPlain_setPrevFree (Nat.le_add_right_of_le hlo) (by omega)
        (by rw [size_carve]; omega)).trans
      (h₃.keepsPlain hl₃.freeOnly hbyte₃)
  have htidy' : Tidy false (pre ++ [⟨need, true⟩, ⟨left, false⟩] ++ post) := by
    rw [List.append_assoc]
    exact Tidy.append.2 ⟨htidy, nofun, fun _ => rfl, hafter⟩
  have hsettled : s₃.Settled lo (pre ++ [⟨need, true⟩, ⟨left, false⟩] ++ post)
      (Plan.push (Plan.drop lists x (x + 1)) (x + need) left) := ⟨h₃, htidy', hl₃⟩
  refine ⟨s₃, ?_, by rw [hsize₃, size_setPrevFree, size_carve, hsize₁], hsettled,
    h.neat hsettled ?_ fun y hy => ?_, fun i hi => ?_⟩
  · have hnote' := hnote (x + need) (by omega) (by rw [hdiv.tagged.2.1.size, Nat.add_assoc])
    rw [FreeLists.place, hhead, Fault.ok_bind, Fault.require_eq _ htag.allocated, Fault.ok_bind,
      htag.size, Fault.require_eq _ (Nat.le_add_right need left), Fault.ok_bind, hs₁, Fault.ok_bind]
    simp only [Nat.add_sub_cancel_left]
    rw [if_pos hleft, Address.add_eq (by omega), Fault.ok_bind, htag.prevFree, hdiv.writes_eq.1,
      Fault.ok_bind, hdiv.writes_eq.2, Fault.ok_bind, hnote', Fault.ok_bind, hs₃, Fault.ok_bind,
      Fault.pure_eq_ok]
  · exact ((h₁.keepsPlain hl₁.freeOnly hbyte₁).trans hdiv.keepsPlain).trans hplain
  · -- the header of the rest is new, and it was just written
    refine (mem_heads_parts hx hy).imp_right fun hy => ?_
    rw [hy]
    exact hplain.plain (x + need) (by omega) (Nat.le_add_right_of_le hlo) hdiv.plain_rest
  · have hfront : (x, ⟨need, true⟩) ∈ Extent.located (lo + frameSize)
        (pre ++ [⟨need, true⟩, ⟨left, false⟩] ++ post) := mem_located_first hx
    have hpre : stop (lo + frameSize) (pre ++ [⟨need, true⟩, ⟨left, false⟩])
        = x + (need + left) := by
      rw [stop_append, hx, hend]
    rw [hbyte₃ i (hi.not_touches hl₃.freeOnly), hkeep i (hpre ▸ hi.header) (hpre ▸ hi.tag_right),
      hdiv.byte_eq (fun hc => hi.tag ⟨x, _, hfront, .inl hc⟩)
        (fun hc => hi.tag ⟨x + need, _, hrest, .inl hc⟩) (hi.footer hrest),
      hbyte₁ i (hi.not_touches hl₂.freeOnly)]

/-- All of a free block comes into use. -/
theorem place_whole (h : r.Settled lo (pre ++ ⟨n, false⟩ :: post) lists)
    (hx : stop (lo + frameSize) pre = x) (hfit : need ≤ n) (hleft : ¬minBlock ≤ n - need) :
    ∃ s, (FreeLists.at lo).place r x need = .ok (s, []) ∧ s.size = r.size
      ∧ s.Settled lo (pre ++ [⟨n, true⟩] ++ post) (Plan.drop lists x (x + 1))
      ∧ (r.Neat lo → s.Neat lo)
      ∧ ∀ i, Kept lo (pre ++ [⟨n, true⟩] ++ post) i → s.byte i = r.byte i := by
  rcases h.unlist hx with ⟨hhead, htag, hn, hlo, s₁, hs₁, hsize₁, h₁, hl₁, hbyte₁⟩
  have hlo' : lo + 128 ≤ x := hlo
  have hx8 : x % 8 = 0 := (h.drawn.located (hx ▸ mem_located_split _ _ _ _)).2.2.1
  have hts : (r.tagAt x).size = n := htag.size
  have hlt : n < 0x100000000 := htag.size_lt
  have hmod : n % 8 = 0 := htag.size_mod
  rcases Tidy.append.1 h.tidy with ⟨htidy, hfree, hafter⟩
  have hplaced : (s₁.setAllocated x n false).TagsAt x false ⟨n, true⟩ :=
    tagsAt_setAllocated (by omega) htag.large htag.size_mod hlt (by omega)
  have hmid : (s₁.setAllocated x n false).Tagged x (lastFree false pre) [⟨n, true⟩] := by
    rw [hfree rfl]
    exact ⟨hplaced, trivial⟩
  have hlarge : 16 ≤ n := htag.large
  rcases h₁.exchange (p := false) hl₁ hx rfl rfl (size_setAllocated _) hmid
    (fun i hi => byte_setAllocated (by omega)) rfl with
    ⟨h₄, hl₄, hnote, hkeep⟩
  have hmem : (x, ⟨n, true⟩) ∈ Extent.located (lo + frameSize) (pre ++ [⟨n, true⟩] ++ post) :=
    mem_located_first hx
  have htidy' : Tidy false (pre ++ [⟨n, true⟩] ++ post) := by
    rw [List.append_assoc]
    exact Tidy.append.2 ⟨htidy, nofun, hafter.of_true⟩
  have hl₅ : Listed (lo + frameSize) (pre ++ [⟨n, true⟩] ++ post) (Plan.drop lists x (x + 1))
      0 0 := by
    refine hl₄.skip fun y m hy => ?_
    -- nothing is left over that could be listed
    have hout : ¬(x ≤ y ∧ y < x + n) := by
      rintro ⟨hxy, hyn⟩
      have heq := (located_inside h₄.large hmem hy hxy hyn).2
      cases heq
    omega
  have hsettled : ((s₁.setAllocated x n false).setPrevFree (x + n) false).Settled lo
      (pre ++ [⟨n, true⟩] ++ post) (Plan.drop lists x (x + 1)) := ⟨h₄, htidy', hl₅⟩
  refine ⟨_, ?_, ?_, hsettled, h.neat hsettled ?_ fun y hy => ?_, fun i hi => ?_⟩
  · have hwrite : s₁.writeAllocated x n false = .ok (s₁.setAllocated x n false) :=
      writeAllocated_eq (by omega) htag.size_mod hlt (by omega)
    have hnote' := hnote x (by omega) (by rw [hplaced.size])
    rw [FreeLists.place, hhead, Fault.ok_bind, Fault.require_eq _ htag.allocated, Fault.ok_bind,
      hts, Fault.require_eq _ hfit, Fault.ok_bind, hs₁, Fault.ok_bind]
    simp only
    rw [if_neg hleft, htag.prevFree, hwrite, Fault.ok_bind, hnote', Fault.ok_bind, Fault.pure_eq_ok]
  · rw [size_setPrevFree, size_setAllocated, hsize₁]
  · exact ((h₁.keepsPlain hl₁.freeOnly hbyte₁).trans
      (keepsPlain_setAllocated hlo hx8 htag.size_mod hlt (by omega))).trans
      (keepsPlain_setPrevFree (by omega) (by omega) (by rw [size_setAllocated]; omega))
  · rw [List.append_assoc, mem_heads_append] at hy
    rw [mem_heads_append]
    exact .inl hy
  · have hpre : stop (lo + frameSize) (pre ++ [⟨n, true⟩]) = x + n := by
      rw [stop_append, hx]
      rfl
    rw [hkeep i (hpre ▸ hi.header) (hpre ▸ hi.tag_right), byte_setAllocated,
      hbyte₁ i (hi.not_touches hl₄.freeOnly)]
    have hc : ¬(x ≤ i + 4 ∧ i < x) := fun hc => hi.tag ⟨x, _, hmem, .inl hc⟩
    omega

/-- Placing a block takes the front of a free block into use, as the plan says. What is left is a
gap. -/
theorem place (h : r.Settled lo (pre ++ ⟨n, false⟩ :: post) lists)
    (hx : stop (lo + frameSize) pre = x) (hneed : minBlock ≤ need) (h8 : need % 8 = 0)
    (hfit : need ≤ n) :
    ∃ s events m left lists', (FreeLists.at lo).place r x need = .ok (s, events)
      ∧ (⟨lo, pre ++ ⟨n, false⟩ :: post, lists⟩ : Plan).place x need
        = (⟨lo, pre ++ ⟨m, true⟩ :: (gap left ++ post), lists'⟩, events)
      ∧ s.size = r.size ∧ m + left = n ∧ need ≤ m
      ∧ s.Settled lo (pre ++ ⟨m, true⟩ :: (gap left ++ post)) lists' ∧ (r.Neat lo → s.Neat lo)
      ∧ ∀ i, Kept lo (pre ++ ⟨m, true⟩ :: (gap left ++ post)) i → s.byte i = r.byte i := by
  obtain ⟨left, rfl⟩ := Nat.exists_eq_add_of_le hfit
  by_cases hleft : minBlock ≤ need + left - need
  · have hplan := Plan.place_split lists h.large hx hleft
    rw [Nat.add_sub_cancel_left] at hleft hplan
    rcases h.place_split hx hneed h8 hleft with ⟨s, hs, hsize, hsettled, hneat, hbyte⟩
    have hleft' : 16 ≤ left := hleft
    -- the rest is a block of its own
    have hes : pre ++ [⟨need, true⟩, ⟨left, false⟩] ++ post
        = pre ++ ⟨need, true⟩ :: (gap left ++ post) := by
      rw [gap_of_ne (by omega), List.append_assoc]
      rfl
    rw [hes] at hplan hsettled hbyte
    exact ⟨s, _, need, left, _, hs, hplan, hsize, rfl, Nat.le_refl need, hsettled, hneat, hbyte⟩
  · rcases h.place_whole hx hfit hleft with ⟨s, hs, hsize, hsettled, hneat, hbyte⟩
    have hplan := Plan.place_whole lists h.large hx hleft
    have hes : pre ++ [⟨need + left, true⟩] ++ post
        = pre ++ ⟨need + left, true⟩ :: (gap 0 ++ post) := by
      rw [gap_zero, List.append_assoc]
      rfl
    rw [hes] at hplan hsettled hbyte
    exact ⟨s, _, need + left, 0, _, hs, hplan, hsize, rfl, hfit, hsettled, hneat, hbyte⟩

end Settled

end Region

end BoundaryTag
