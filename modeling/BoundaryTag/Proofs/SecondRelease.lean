import BoundaryTag.Proofs.MergeEndAnyBytes

/-!
# SecondRelease — blocks that are freed twice

What becomes of a region when a block that has just been released is released once more.

* `Remains`: inside the block that it became part of, the tags and links are left that it had.
* `Settled.released`: a release leaves a settled region, with these remains in it.
* `Released.release_again`: what the second release does by them, up to its last steps.
* `Released.settled_again_iff`: the result is settled exactly in the case of `Unseen`.
-/

namespace BoundaryTag

open Extent

namespace Extent

variable {lo x m i : Nat} {pre post : List Extent}

/-- Inside a free block are no tags and no links. -/
theorem kept_inside (hl : Large (pre ++ ⟨m, false⟩ :: post)) (hx : stop (lo + frameSize) pre = x)
    (hi : x + 8 ≤ i) (him : i + 8 < x + m) : Kept lo (pre ++ ⟨m, false⟩ :: post) i := by
  have hlo : lo + 128 ≤ x := hx ▸ le_stop (lo + frameSize) pre
  have hmem : (x, ⟨m, false⟩) ∈ located (lo + frameSize) (pre ++ ⟨m, false⟩ :: post) :=
    hx ▸ mem_located_split _ _ _ _
  have hend := (located_bounds hmem).2
  simp only at hend
  refine ⟨?_, ?_, ?_, by omega⟩
  · simp only [frameSize]
    omega
  · rintro ⟨y, e, hy, hye⟩
    have hs := hl.size hy
    rcases located_unique (i + 4) hl hmem hy (by omega) (by simp only; omega) (by omega)
      (by omega) with ⟨rfl, rfl⟩
    simp only at hye
    omega
  · rintro ⟨y, e, hy, -, hye⟩
    have hs := hl.size hy
    rcases located_unique (i + 4) hl hmem hy (by omega) (by simp only; omega) (by omega)
      (by omega) with ⟨rfl, rfl⟩
    omega

end Extent

namespace Region

/-- The block of `n` bytes at `a` shows that it is free and comes after a free one of `b` bytes. If
`f` is not zero, a free block of `f` bytes follows, with its links in the list for its size. -/
structure Remains (r : Region) (lo a b n f : Nat) (l₁ l₂ : List Nat) : Prop where
  size : (r.tagAt a).size = n
  allocated : (r.tagAt a).allocated = false
  prevFree : (r.tagAt a).prevFree = true
  before : (Tag.mk (r.word (a - 8))).size = b
  after : f ≠ 0 → (r.tagAt (a + n)).size = f ∧ (r.tagAt (a + n)).allocated = false
  back : f ≠ 0 → (FreeLists.at lo).links.linkAt r (a + n)
    = some (l₁.getLastD ((FreeLists.at lo).sentinelAt (SizeClass.of f)))
  next : f ≠ 0 → (FreeLists.at lo).links.linkAt r (a + n + 4) = l₂.head?

variable {r s t : Region} {lo x b n f m : Nat} {pre post : List Extent}
  {lists rest : Nat → List Nat} {l₁ l₂ : List Nat}

/-- A block between two gaps shows all this before they are joined. -/
theorem Drawn.remains (h : s.Drawn lo (pre ++ gap b ++ ⟨n, false⟩ :: (gap f ++ post)) lists)
    (hx : stop (lo + frameSize) pre = x) (hb : b ≠ 0)
    (hsplit : f ≠ 0 → lists (SizeClass.of f) = l₁ ++ (x + b + n) :: l₂) :
    s.Remains lo (x + b) b n f l₁ l₂ := by
  have hchain := Chained.append.1 h.chained
  rw [stop_append, hx, stop_gap, lastFree_append, gap_of_ne hb] at hchain
  have hown := hchain.2.tagged.1
  have hbefore := (Tagged.append.1 hchain.1).2.1
  rw [hx] at hbefore
  have hafter : f ≠ 0 → s.TagsAt (x + b + n) true ⟨f, false⟩ := by
    intro hf
    have hrest := hchain.2.tagged.2
    rw [gap_of_ne hf] at hrest
    exact hrest.1
  have hlinks : f ≠ 0 → (FreeLists.at lo).links.linkAt s (x + b + n)
        = some (l₁.getLastD ((FreeLists.at lo).sentinelAt (SizeClass.of f)))
      ∧ (FreeLists.at lo).Strung s (x + b + n) l₂ := by
    intro hf
    have hstr := h.lists.strung _ (SizeClass.of_lt_count f)
    rw [hsplit hf] at hstr
    exact hstr.append
  refine ⟨hown.size, hown.allocated, hown.prevFree, ?_,
    fun hf => ⟨(hafter hf).size, (hafter hf).allocated⟩,
    fun hf => (hlinks hf).1, fun hf => (hlinks hf).2.next⟩
  -- its footer tells how long the gap before it is
  have hfoot : s.word (x + b - 8) = (s.tagAt x).word := hbefore.footer rfl
  rw [hfoot]
  exact hbefore.size

/-- They depend on bytes inside of the block that comes about. -/
theorem Remains.congr (h : s.Remains lo (x + b) b n f l₁ l₂) (hb : 16 ≤ b) (hn : 16 ≤ n)
    (hf : f ≠ 0 → 16 ≤ f) (hm : b + n + f = m)
    (hbyte : ∀ i, x + 8 ≤ i → i + 8 < x + m → t.byte i = s.byte i) :
    t.Remains lo (x + b) b n f l₁ l₂ := by
  have htag : t.tagAt (x + b) = s.tagAt (x + b) :=
    tagAt_congr (by omega) fun i hi hi' => hbyte i (by omega) (by omega)
  have hword : t.word (x + b - 8) = s.word (x + b - 8) :=
    word_congr fun i hi hi' => hbyte i (by omega) (by omega)
  have hafter : f ≠ 0 → t.tagAt (x + b + n) = s.tagAt (x + b + n) := fun hf0 =>
    have := hf hf0
    tagAt_congr (by omega) fun i hi hi' => hbyte i (by omega) (by omega)
  have hlink : f ≠ 0 → ∀ a, x + b + n ≤ a → a + 4 ≤ x + b + n + 8 →
      (FreeLists.at lo).links.linkAt t a = (FreeLists.at lo).links.linkAt s a := fun hf0 a ha ha' =>
    have := hf hf0
    Links.linkAt_congr fun i hi hi' => hbyte i (by omega) (by omega)
  refine ⟨htag ▸ h.size, htag ▸ h.allocated, htag ▸ h.prevFree, hword ▸ h.before, fun hf0 => ?_,
    fun hf0 => ?_, fun hf0 => ?_⟩
  · rw [hafter hf0]
    exact h.after hf0
  · rw [hlink hf0 _ (Nat.le_refl _) (by omega)]
    exact h.back hf0
  · rw [hlink hf0 _ (by omega) (by omega)]
    exact h.next hf0

/-- A release begins with the tags of a free block and with telling the next one. That comes through
on any bytes, if the next tag is that of a block in use or of one that ends inside. -/
theorem writeFree_told {a : Nat} {p : Bool} (h4 : 4 ≤ a) (hn : 16 ≤ n) (h8 : n % 8 = 0)
    (hlt : n < 0x100000000) (hend : a + n ≤ r.size)
    (hnext : (r.tagAt (a + n)).allocated = true
      ∨ (16 ≤ (r.tagAt (a + n)).size ∧ a + n + (r.tagAt (a + n)).size ≤ r.size)) :
    ∃ s₁ s₂, r.writeFree a n p = .ok s₁ ∧ s₁.notePrevFree a true = .ok s₂ ∧ s₂.size = r.size
      ∧ s₂.tagAt a = Tag.make n false p ∧ s₂.tagAt (a + n) = (r.tagAt (a + n)).withPrevFree true
      ∧ ∀ i, ¬(a ≤ i + 4 ∧ i < a) → ¬(a + n ≤ i + 8 ∧ i < a + n) →
        ((r.tagAt (a + n)).allocated = false →
          ¬(a + n + (r.tagAt (a + n)).size ≤ i + 8 ∧ i + 4 < a + n + (r.tagAt (a + n)).size)) →
        s₂.byte i = r.byte i := by
  have hown : (r.setFree a n p).tagAt a = Tag.make n false p :=
    tagAt_setFree h4 (by omega) (by omega)
  have hafter : (r.setFree a n p).tagAt (a + n) = r.tagAt (a + n) :=
    tagAt_congr (by omega) fun i hi hi' => byte_setFree (by omega) (by omega)
  -- the tags of the block are written first, then the one after it is told
  refine ⟨_, (r.setFree a n p).setPrevFree (a + n) true,
    writeFree_eq h4 h8 (by omega) hlt (by omega), notePrevFree_eq h4 ?_ ?_ ?_, ?_, ?_, ?_,
    fun i hi hi' hnot => ?_⟩
  · rw [hown, Tag.size_make _ _ h8 hlt]
  · rw [size_setFree]
    exact hend
  · rw [hafter, size_setFree]
    rcases hnext with huse | ⟨-, hfits⟩
    · exact .inl huse
    · exact .inr (.inr (by omega))
  · rw [size_setPrevFree, size_setFree]
  · rw [← hown]
    exact tagAt_congr h4 fun i hi hi' => byte_setPrevFree_below (by omega)
  · rw [tagAt_setPrevFree (by omega) (by rw [size_setFree]; exact hend), hafter]
  · rw [byte_setPrevFree (by omega) fun ha _ => ?_, byte_setFree (by omega) (by omega)]
    rw [hafter] at ha ⊢
    have := hnot ha
    omega

/-- What remains of a block can be given its tags again, and nothing is seen of it outside. -/
theorem Remains.reopen (h : r.Remains lo (x + b) b n f l₁ l₂) (hb : 16 ≤ b) (hn : 16 ≤ n)
    (hf : f ≠ 0 → 16 ≤ f) (hm : b + n + f = m) (hend : x + m ≤ r.size)
    (hnext : f = 0 → (r.tagAt (x + m)).allocated = true) :
    ∃ s₁ s₂, r.writeFree (x + b) n (r.tagAt (x + b)).prevFree = .ok s₁
      ∧ s₁.notePrevFree (x + b) true = .ok s₂ ∧ s₂.size = r.size
      ∧ s₂.Remains lo (x + b) b n f l₁ l₂
      ∧ (s₂.tagAt (x + b + n)).allocated = decide (f = 0)
      ∧ ∀ i, ¬(x + 8 ≤ i ∧ i < x + m) → s₂.byte i = r.byte i := by
  have h8 : n % 8 = 0 := h.size ▸ Tag.size_mod _
  have hlt : n < 0x100000000 := by
    have := (r.tagAt (x + b)).size_le
    rw [h.size] at this
    omega
  -- the next block is the dead one, or the first one that is not dead
  have hcases : (f = 0 ∧ (r.tagAt (x + b + n)).allocated = true)
      ∨ (f ≠ 0 ∧ (r.tagAt (x + b + n)).allocated = false ∧ (r.tagAt (x + b + n)).size = f
        ∧ 16 ≤ f) := by
    by_cases hf0 : f = 0
    · have hxm : x + b + n = x + m := by omega
      exact .inl ⟨hf0, hxm ▸ hnext hf0⟩
    · exact .inr ⟨hf0, (h.after hf0).2, (h.after hf0).1, hf hf0⟩
  have htold : (r.tagAt (x + b + n)).allocated = true ∨ (16 ≤ (r.tagAt (x + b + n)).size
      ∧ x + b + n + (r.tagAt (x + b + n)).size ≤ r.size) := by
    rcases hcases with ⟨-, huse⟩ | ⟨-, -, hsize, hf16⟩
    · exact .inl huse
    · exact .inr ⟨by omega, by omega⟩
  rcases writeFree_told (p := true) (by omega) hn h8 hlt (by omega) htold with
    ⟨s₁, s₂, hwrite, hnote, hsize, hown, hafter, hbyte⟩
  have hfoot : ∀ i, (r.tagAt (x + b + n)).allocated = false → ¬(x + m ≤ i + 8 ∧ i + 4 < x + m) →
      ¬(x + b + n + (r.tagAt (x + b + n)).size ≤ i + 8
        ∧ i + 4 < x + b + n + (r.tagAt (x + b + n)).size) := by
    intro i hfree hi
    rcases hcases with ⟨-, huse⟩ | ⟨-, -, hsize, -⟩
    · rw [huse] at hfree
      cases hfree
    · omega
  have hword : s₂.word (x + b - 8) = r.word (x + b - 8) :=
    word_congr fun i hi hi' => hbyte i (by omega) (by omega) fun ha => hfoot i ha (by omega)
  have hlink : f ≠ 0 → ∀ a, x + b + n ≤ a → a + 4 ≤ x + b + n + 8 →
      (FreeLists.at lo).links.linkAt s₂ a = (FreeLists.at lo).links.linkAt r a :=
    fun hf0 a ha ha' =>
    have := hf hf0
    Links.linkAt_congr fun i hi hi' =>
      hbyte i (by omega) (by omega) fun ha => hfoot i ha (by omega)
  refine ⟨s₁, s₂, ?_, hnote, hsize, ⟨?_, ?_, ?_, hword ▸ h.before, fun hf0 => ?_, fun hf0 => ?_,
    fun hf0 => ?_⟩, ?_, fun i hi => hbyte i (by omega) (by omega) fun ha => hfoot i ha (by omega)⟩
  · rw [h.prevFree]
    exact hwrite
  · rw [hown, Tag.size_make _ _ h8 hlt]
  · rw [hown, Tag.allocated_make _ _ h8 hlt]
  · rw [hown, Tag.prevFree_make _ _ h8 hlt]
  · rw [hafter, Tag.size_withPrevFree, Tag.allocated_withPrevFree]
    exact h.after hf0
  · rw [hlink hf0 _ (Nat.le_refl _) (by omega)]
    exact h.back hf0
  · rw [hlink hf0 _ (by omega) (by omega)]
    exact h.next hf0
  · rw [hafter, Tag.allocated_withPrevFree]
    rcases hcases with ⟨hf0, huse⟩ | ⟨hf0, hfree, -⟩
    · rw [huse, decide_eq_true hf0]
    · rw [hfree, decide_eq_false hf0]

/-! ## After the first time -/

/-- The block of `n` bytes at `x + b` has become free, and joined the gaps of `b` and of `f` bytes
on either side. The one after it was between `l₁` and `l₂` in its list. -/
structure Released (r : Region) (lo x b n f : Nat) (pre post : List Extent) (rest : Nat → List Nat)
    (l₁ l₂ : List Nat) : Prop where
  settled : r.Settled lo (pre ++ ⟨b + n + f, false⟩ :: post) (Plan.push rest x (b + n + f))
  stop_eq : stop (lo + frameSize) pre = x
  remains : b ≠ 0 → r.Remains lo (x + b) b n f l₁ l₂
  large : 16 ≤ n ∧ (b ≠ 0 → 16 ≤ b) ∧ (f ≠ 0 → 16 ≤ f)
  alone : f = 0 → l₁ = [] ∧ l₂ = []
  listed : f ≠ 0 → rest (SizeClass.of f) = l₁.filter (· ≠ x) ++ l₂.filter (· ≠ x)
  nodup : (l₁ ++ l₂).Nodup
  absent : ∀ c, x ∉ rest c

theorem push_eq_withList (rest : Nat → List Nat) (x m : Nat) :
    Plan.push rest x m
      = FreeLists.withList rest (SizeClass.of m) (x :: rest (SizeClass.of m)) := by
  funext c
  unfold Plan.push FreeLists.withList
  split
  case isTrue hc => rw [hc]
  case isFalse => rfl

/-- What is in the lists when the blocks have left them that the second release takes out. -/
def kept (rest : Nat → List Nat) (x b n f : Nat) (l₁ l₂ : List Nat) : Nat → List Nat :=
  FreeLists.withList rest (SizeClass.of (b + n + f))
    (FreeLists.rejoined rest x (SizeClass.of (b + n + f)) l₁ l₂)

/-- What the second release has in hand at its last steps. The first list is that of the block that
came about, and the second that of the block after the one which is released again. -/
structure Gathered (r s : Region) (lo x b n f : Nat) (rest : Nat → List Nat) (l₁ l₂ : List Nat) :
    Prop where
  size : s.size = r.size
  byte : ∀ i, ¬(FreeLists.at lo).Touches (Plan.push rest x (b + n + f)) i →
    ¬(x + 8 ≤ i ∧ i < x + (b + n + f)) → s.byte i = r.byte i
  leads : (FreeLists.at lo).Leads s (Plan.push rest x (b + n + f))
  right : FreeLists.Rejoins x (SizeClass.of (b + n + f)) (SizeClass.of f) l₁ l₂ →
    (FreeLists.at lo).Represents s (kept rest x b n f l₁ l₂)
      ∧ ∀ i, x + 8 ≤ i → ¬(FreeLists.at lo).Touches (kept rest x b n f l₁ l₂) i →
        ¬(x + 8 ≤ i ∧ i < x + (b + n + f)) → s.byte i = r.byte i
  astray : ¬FreeLists.Rejoins x (SizeClass.of (b + n + f)) (SizeClass.of f) l₁ l₂ →
    ∃ z, (FreeLists.at lo).links.linkAt s
        ((FreeLists.at lo).sentinelAt (SizeClass.of (b + n + f)) + 4) = some z
      ∧ (z = x ∨ (SizeClass.of (b + n + f) ≠ SizeClass.of f ∧ z ∈ rest (SizeClass.of f)))

/-- The second release goes unseen: it takes the block that came about for one that reaches further,
the blocks that it takes out of their lists have their links right, and where it takes the next
block to be are the tags of blocks all free ones of which are listed. -/
structure Unseen (r : Region) (lo x b n f : Nat) (pre : List Extent) (rest : Nat → List Nat)
    (l₁ l₂ : List Nat) : Prop where
  merged : b ≠ 0
  rejoins : FreeLists.Rejoins x (SizeClass.of (b + n + f)) (SizeClass.of f) l₁ l₂
  after : ∃ q post, r.Chained (x + (n + f + (b + n + f))) q post ∧ Tidy true post
    ∧ Listed (lo + frameSize) (pre ++ ⟨n + f + (b + n + f), false⟩ :: post)
        (Plan.push (kept rest x b n f l₁ l₂) x (n + f + (b + n + f))) 0 0

namespace Released

theorem located (h : r.Released lo x b n f pre post rest l₁ l₂) :
    (x, ⟨b + n + f, false⟩) ∈ Extent.located (lo + frameSize) (pre ++ ⟨b + n + f, false⟩ :: post) :=
  h.stop_eq ▸ mem_located_split _ _ _ _

theorem chained (h : r.Released lo x b n f pre post rest l₁ l₂) :
    r.Chained x false (⟨b + n + f, false⟩ :: post) := by
  have hchain := (Chained.append.1 h.settled.drawn.chained).2
  rw [h.stop_eq, (Tidy.append.1 h.settled.tidy).2.1 rfl] at hchain
  exact hchain

theorem tidy (h : r.Released lo x b n f pre post rest l₁ l₂) : Tidy true post :=
  (Tidy.append.1 h.settled.tidy).2.2

/-- The block after the one that came about is in use. -/
theorem allocated_next (h : r.Released lo x b n f pre post rest l₁ l₂) :
    (r.tagAt (x + (b + n + f))).allocated = true := by
  have hrest : r.Chained (x + (b + n + f)) true post := h.chained.tail
  exact hrest.allocated h.tidy

/-- A free block is the one that came about, or its links are apart from it. -/
theorem beside (h : r.Released lo x b n f pre post rest l₁ l₂) {a k : Nat}
    (hk : (a, ⟨k, false⟩) ∈ Extent.located (lo + frameSize)
      (pre ++ ⟨b + n + f, false⟩ :: post)) :
    lo + frameSize ≤ a ∧ a + 16 ≤ r.size
      ∧ (a + 16 ≤ x ∨ a = x ∨ x + (b + n + f) ≤ a) := by
  have hb := h.settled.drawn.located hk
  simp only at hb
  refine ⟨hb.1, by omega, ?_⟩
  by_cases hax : a = x
  · exact .inr (.inl hax)
  · have := located_beside h.settled.large h.located hk hax
    omega

/-- Links are neither in the header of the block nor further inside. -/
theorem apart (h : r.Released lo x b n f pre post rest l₁ l₂) {c y : Nat}
    (hc : c < SizeClass.count)
    (hy : y ∈ (FreeLists.at lo).sentinelAt c :: Plan.push rest x (b + n + f) c) :
    y + 8 ≤ x - 4 ∨ y = x ∨ x + (b + n + f) ≤ y := by
  have hx := h.settled.drawn.located h.located
  simp only [frameSize] at hx
  rcases List.mem_cons.1 hy with rfl | hy
  · have := (FreeLists.sentinel_lt lo hc).2
    simp only [frameSize] at this
    omega
  · rcases h.settled.listed.located hy with ⟨k, hk, -, -⟩
    have := h.beside hk
    omega

theorem not_touches_header (h : r.Released lo x b n f pre post rest l₁ l₂) {i : Nat}
    (hi : x - 4 ≤ i) (hix : i < x) :
    ¬(FreeLists.at lo).Touches (Plan.push rest x (b + n + f)) i := by
  rintro ⟨c, hc, y, hy, hyi⟩
  have := h.apart hc hy
  omega

/-- Nothing inside of the block matters to the lists. -/
theorem represents (h : r.Released lo x b n f pre post rest l₁ l₂) (hsize : s.size = r.size)
    (hbyte : ∀ i, ¬(x + 8 ≤ i ∧ i < x + (b + n + f)) → s.byte i = r.byte i) :
    (FreeLists.at lo).Represents s (Plan.push rest x (b + n + f)) := by
  refine h.settled.drawn.lists.congr (Nat.le_of_eq hsize.symm) fun c hc y hy i hi hi' => ?_
  have := h.apart hc hy
  exact hbyte i (by omega)

/-- The header of the block that came about is no link, so it is absorbed with its size when it can
leave its list. -/
theorem absorb_eq (h : r.Released lo x b n f pre post rest l₁ l₂) (hsize : s.size = r.size)
    (hbyte : ∀ i, ¬(FreeLists.at lo).Touches (Plan.push rest x (b + n + f)) i →
      ¬(x + 8 ≤ i ∧ i < x + (b + n + f)) → s.byte i = r.byte i)
    (hrun : (FreeLists.at lo).remove s x = .ok t) :
    (FreeLists.at lo).absorb s (n + f) x = .ok (t, n + f + (b + n + f)) := by
  have hx := h.settled.drawn.located h.located
  simp only [frameSize] at hx
  have hr := r.size_lt
  have htag : s.tagAt x = r.tagAt x :=
    tagAt_congr (by omega) fun i hi hi' => hbyte i (h.not_touches_header hi hi') (by omega)
  have hown := h.chained.tagged.1
  have hsz : (s.tagAt x).size = b + n + f := by
    rw [htag]
    exact hown.size
  have hfree : (s.tagAt x).allocated = false := by
    rw [htag]
    exact hown.allocated
  rw [FreeLists.absorb_eq (by omega) (by omega) hfree (by omega) hrun, hsz]

/-- The block after the one that is released again leaves its list again, if there was one, and then
the block that came about leaves its own. -/
theorem depart (h : r.Released lo x b n f pre post rest l₁ l₂) (hsize : s.size = r.size)
    (hbyte : ∀ i, ¬(x + 8 ≤ i ∧ i < x + (b + n + f)) → s.byte i = r.byte i)
    (hrem : s.Remains lo (x + b) b n f l₁ l₂) :
    ∃ s₁ s₂, (FreeLists.at lo).Absorbs s n (if f = 0 then none else some (x + b + n)) s₁ (n + f)
      ∧ (FreeLists.at lo).Absorbs s₁ (n + f) (some x) s₂ (n + f + (b + n + f))
      ∧ (FreeLists.at lo).Departed s s₂ rest x (SizeClass.of (b + n + f)) (SizeClass.of f)
        l₁ l₂ := by
  have hx := h.settled.drawn.located h.located
  simp only [frameSize] at hx
  have hr := r.size_lt
  have hspan := h.settled.drawn.span
  have hlists := h.represents hsize hbyte
  have hj := SizeClass.of_lt_count (b + n + f)
  by_cases hf : f = 0
  · -- the next block is in use, so only the one that came about leaves
    rcases h.alone hf with ⟨rfl, rfl⟩
    rw [push_eq_withList] at hlists
    rcases FreeLists.Dangling.departs_front hj hlists with ⟨t, hrun, hdep⟩
    refine ⟨s, t, ?_, h.absorb_eq hsize (fun i _ hi => hbyte i hi) hrun, hdep⟩
    rw [if_pos hf, hf]
    exact ⟨rfl, rfl⟩
  · have hf16 := h.large.2.2 hf
    have hdang : (FreeLists.at lo).Dangling s rest x (x + b + n) (SizeClass.of (b + n + f))
        (SizeClass.of f) l₁ l₂ := by
      exact ⟨push_eq_withList _ _ _ ▸ hlists, hj, SizeClass.of_lt_count f, h.listed hf, h.nodup,
        FreeLists.spot_at (by omega) (by omega) (by omega), hrem.back hf, hrem.next hf⟩
    rcases hdang.departs with ⟨s₁, s₂, hrun₁, hrun₂, hsize₁, hbyte₁, hdep⟩
    rw [← push_eq_withList] at hbyte₁
    refine ⟨s₁, s₂, ?_, h.absorb_eq (hsize₁.trans hsize)
      (fun i hi hi' => (hbyte₁ i hi).trans (hbyte i hi')) hrun₂, hdep⟩
    rw [if_neg hf]
    have hsz := (hrem.after hf).1
    have habs : (FreeLists.at lo).absorb s n (x + b + n)
        = .ok (s₁, n + (s.tagAt (x + b + n)).size) :=
      FreeLists.absorb_eq (by omega) (by omega) (hrem.after hf).2 (by omega) hrun₁
    rw [hsz] at habs
    exact habs

/-- The second release takes the size of the block that came about for that of the gap which the
first one found, so the last steps are for a block that passes its end. -/
theorem release_again (h : r.Released lo x b n f pre post rest l₁ l₂) (hb : b ≠ 0) :
    ∃ s : Region, r.Gathered s lo x b n f rest l₁ l₂
      ∧ (FreeLists.at lo).release r (x + b) = (do
          let (t, _, events) ← (FreeLists.at lo).finish s x (n + f + (b + n + f))
            [.coalesce x (n + f + (b + n + f))]
          return (t, events)) := by
  have hx := h.settled.drawn.located h.located
  simp only [frameSize] at hx
  have hrem := h.remains hb
  rcases h.large with ⟨hn16, hb16, hf16⟩
  rcases hrem.reopen (hb16 hb) hn16 hf16 rfl hx.2.1 (fun _ => h.allocated_next) with
    ⟨s₁, s₂, hwrite, hnote, hsize₂, hrem₂, hafter, hbyte₂⟩
  rcases h.depart hsize₂ hbyte₂ hrem₂ with ⟨s₃, s, hfront, hback, hdep⟩
  refine ⟨s, ⟨hdep.size.trans hsize₂, fun i hi hi' => ?_, ?_, fun hr => ?_, hdep.astray⟩, ?_⟩
  · rw [push_eq_withList] at hi
    rw [hdep.byte i hi, hbyte₂ i hi']
  · rw [push_eq_withList]
    exact hdep.leads
  · rcases hdep.right hr with ⟨hrep, hbyte⟩
    refine ⟨hrep, fun i hxi hi hi' => ?_⟩
    rw [hbyte i fun ht => hi ?_, hbyte₂ i hi']
    rcases ht with ⟨c, hc, a, ha, hai⟩
    refine ⟨c, hc, a, ?_, hai⟩
    rcases List.mem_cons.1 ha with rfl | ha
    · exact List.mem_cons_self
    · refine List.mem_cons_of_mem _ ?_
      unfold FreeLists.withList at ha
      unfold kept FreeLists.withList
      split at ha
      case isFalse hcj =>
        rw [if_neg hcj]
        exact ha
      case isTrue hcj =>
        rw [if_pos hcj]
        refine (List.mem_cons.1 ha).resolve_left fun hax => ?_
        omega
  have hb16 := hb16 hb
  -- the stale footer leads back to the block that came about
  have hhead : s₂.header (x + b) = .ok (s₂.tagAt (x + b)) := header_eq (by omega) (by omega)
  have hnext : s₂.next (x + b) = .ok (x + b + n) := by
    rw [next_eq (by omega) (by omega), hrem₂.size]
  have hprev : s₂.previous (x + b) = .ok x := by
    rw [previous_eq (by omega) (by omega) hrem₂.prevFree (by rw [hrem₂.before]; omega),
      hrem₂.before, Nat.add_sub_cancel]
  have hbefore : if (s₂.tagAt (x + b)).prevFree then
      ∃ a, s₂.previous (x + b) = .ok a ∧ some x = some a else some x = none := by
    rw [if_pos hrem₂.prevFree]
    exact ⟨x, hprev, rfl⟩
  have hmerge := FreeLists.merge_eq hhead hnext (header_eq (by omega) (by omega)) hbefore
    (by rw [hrem₂.size, hafter]; simpa using hfront) hback
  rw [FreeLists.release, header_eq (by omega) (by omega), Fault.ok_bind, hrem.size, hwrite,
    Fault.ok_bind, hnote, Fault.ok_bind, hmerge]
  simp

/-! ## Whether the result is settled -/

theorem mod_eight (h : r.Released lo x b n f pre post rest l₁ l₂) (hb : b ≠ 0) :
    (n + f + (b + n + f)) % 8 = 0 := by
  have hx := h.settled.drawn.located h.located
  have hb8 : b % 8 = 0 := (h.remains hb).before ▸ Tag.size_mod _
  simp only at hx
  omega

/-- The sentinels lead to blocks that were free. -/
theorem located_first (h : r.Released lo x b n f pre post rest l₁ l₂)
    (hs : r.Gathered s lo x b n f rest l₁ l₂) {c a : Nat} (hc : c < SizeClass.count)
    (ha : a ∈ (FreeLists.at lo).links.linkAt s ((FreeLists.at lo).sentinelAt c + 4)) :
    ∃ k, (a, ⟨k, false⟩) ∈ Extent.located (lo + frameSize) (pre ++ ⟨b + n + f, false⟩ :: post) := by
  rcases hs.leads c hc a ha with ⟨k, -, hak⟩
  rcases h.settled.listed.located hak with ⟨m, hm, -, -⟩
  exact ⟨m, hm⟩

theorem leading (h : r.Released lo x b n f pre post rest l₁ l₂)
    (hs : r.Gathered s lo x b n f rest l₁ l₂) : s.Leading lo x := by
  have hx := h.settled.drawn.located h.located
  have hsize := hs.size
  simp only at hx
  refine ⟨hx.1, by omega, hsize ▸ h.settled.drawn.span, fun c hc a ha => ?_⟩
  rcases h.located_first hs hc ha with ⟨k, hk⟩
  have := h.beside hk
  omega

/-- Tags are left as they were, other than inside of the block that came about. -/
theorem byte_tag (h : r.Released lo x b n f pre post rest l₁ l₂)
    (hs : r.Gathered s lo x b n f rest l₁ l₂) {i : Nat}
    (hi : IsTag (lo + frameSize) (pre ++ ⟨b + n + f, false⟩ :: post) i)
    (hi' : ¬(x + 8 ≤ i ∧ i < x + (b + n + f))) : s.byte i = r.byte i := by
  refine hs.byte i (fun ht => ?_) hi'
  rcases FreeLists.touches_cases h.settled.listed.freeOnly ht with hc | hc
  · have := (hi.bounds h.settled.large).1
    simp only [frameSize, prologueSize] at this hc
    omega
  · exact not_isLink_of_isTag h.settled.large hi hc

theorem drawnUpTo (h : r.Released lo x b n f pre post rest l₁ l₂)
    (hs : r.Gathered s lo x b n f rest l₁ l₂) : s.DrawnUpTo lo pre x := by
  refine (h.settled.drawn.drawnUpTo h.stop_eq).congr hs.size fun i hi hi' hil => ?_
  refine hs.byte i (fun ht => ?_) (by omega)
  rcases FreeLists.touches_cases h.settled.listed.freeOnly ht with hc | hc
  · exact hi' hc
  · rcases IsLink.append.1 hc with hc | hc
    · exact hil hc
    · have := (hc.bounds (Large.append.1 h.settled.large).2).1
      rw [h.stop_eq] at this
      omega

/-- The tags after the longer block are no links of what is kept in the lists. -/
theorem not_touches_kept {g i : Nat} {kept : Nat → List Nat}
    (hx : stop (lo + frameSize) pre = x) (hl : Large (pre ++ ⟨g, false⟩ :: post))
    (hend : stop (lo + frameSize) (pre ++ ⟨g, false⟩ :: post) = r.size)
    (hlisted : Listed (lo + frameSize) (pre ++ ⟨g, false⟩ :: post) (Plan.push kept x g) 0 0)
    (hi : IsTag (x + g) post i ∨ (r.size ≤ i + 4 ∧ i < r.size)) :
    ¬(FreeLists.at lo).Touches kept i := by
  rintro ⟨c, hc, a, ha, hai⟩
  have hlo : lo + 128 ≤ x := hx ▸ le_stop (lo + frameSize) pre
  have hxg : x + g ≤ r.size := by
    rw [← hend, stop_append, hx]
    exact le_stop (x + g) post
  have htouch : (FreeLists.at lo).Touches (Plan.push kept x g) i := by
    refine ⟨c, hc, a, ?_, hai⟩
    rcases List.mem_cons.1 ha with rfl | ha
    · exact List.mem_cons_self
    · exact List.mem_cons_of_mem _ (FreeLists.mem_push.2 (.inr ha))
  have hbelow : x + g ≤ i + 4 := by
    rcases hi with hi | hi
    · exact (hi.bounds (Large.cons.1 (Large.append.1 hl).2).2).1
    · omega
  rcases FreeLists.touches_cases hlisted.freeOnly htouch with hlink | hlink
  · simp only [prologueSize] at hlink
    omega
  · rcases hi with hi | hi
    · exact not_isLink_of_isTag hl (hi.after hx) hlink
    · have := (hlink.bounds hl).2
      omega

theorem not_mem_kept (h : r.Released lo x b n f pre post rest l₁ l₂) (c : Nat) :
    x ∉ kept rest x b n f l₁ l₂ c := by
  intro hx
  unfold kept FreeLists.withList at hx
  split at hx
  case isFalse => exact h.absent c hx
  case isTrue =>
    unfold FreeLists.rejoined at hx
    split at hx
    case isFalse => exact h.absent _ hx
    case isTrue hlast =>
      -- it was before the other block, and so not after it
      exact (List.nodup_append.1 h.nodup).2.2 x (List.mem_of_getLast? hlast) x hx rfl

/-- A second release that is right about the next block, and about the links, settles the region. -/
theorem settled_of_unseen (h : r.Released lo x b n f pre post rest l₁ l₂)
    (hu : r.Unseen lo x b n f pre rest l₁ l₂) :
    ∃ t events es lists, (FreeLists.at lo).release r (x + b) = .ok (t, events)
      ∧ t.Settled lo es lists := by
  rcases h.release_again hu.merged with ⟨s, hs, hrun⟩
  rcases hu.after with ⟨q, post', hpost, htidy, hlisted⟩
  rcases hs.right hu.rejoins with ⟨hrep, hbyte⟩
  have hmod := h.mod_eight hu.merged
  rcases h.large with ⟨hn16, -, -⟩
  have hend := hpost.le_size
  have hlpost := hpost.tagged.large
  rcases Tidy.append.1 h.settled.tidy with ⟨htidyPre, hlast, -⟩
  have hlarge : Large (pre ++ ⟨n + f + (b + n + f), false⟩ :: post') := by
    refine Large.append.2 ⟨(Large.append.1 h.settled.large).1, Large.cons.2 ⟨?_, hlpost⟩⟩
    simp only [minBlock]
    omega
  have hstop : stop (lo + frameSize) (pre ++ ⟨n + f + (b + n + f), false⟩ :: post') = r.size := by
    rw [stop_append, h.stop_eq]
    exact hpost.stop_eq
  have hpost' : s.Chained (x + (n + f + (b + n + f))) q post' := by
    refine hpost.congr (by omega) hs.size fun i hi => ?_
    have habove : x + (n + f + (b + n + f)) ≤ i + 4 := by
      rcases hi with hi | hi
      · exact (hi.bounds hlpost).1
      · omega
    exact hbyte i (by omega) (not_touches_kept h.stop_eq hlarge hstop hlisted hi) (by omega)
  -- the header of the block is left from the first release
  have hprev : (s.tagAt x).prevFree = false := by
    have hx := h.settled.drawn.located h.located
    simp only [frameSize] at hx
    have htag : s.tagAt x = r.tagAt x := by
      refine tagAt_congr (by omega) fun i hi hi' => h.byte_tag hs ?_ (by omega)
      exact ⟨x, _, h.located, .inl ⟨by omega, hi'⟩⟩
    rw [htag]
    exact h.chained.prevFree
  rcases (h.drawnUpTo hs).finish hprev (by omega) hmod hpost'
    (Tidy.append_free htidyPre (hlast rfl) htidy) hrep (fun c _ => h.not_mem_kept c) hlisted with
    ⟨t, hfinish, -, hsettled, -⟩
  refine ⟨t, [.coalesce x (n + f + (b + n + f))], _, _, ?_, hsettled⟩
  rw [hrun, hfinish, Fault.ok_bind]
  rfl

/-- Where a sentinel was led astray, it leads to a block of another class, or in a circle. -/
theorem rejoins_of_settled (h : r.Released lo x b n f pre post rest l₁ l₂)
    (hs : r.Gathered s lo x b n f rest l₁ l₂) {g : Nat} {es post' : List Extent}
    {lists : Nat → List Nat} (hg : b + n + f + 16 ≤ g) (h8 : g % 8 = 0) (hf : s.Finished t lo x g)
    (ht : t.Settled lo es lists) (hpost : t.Chained (x + g) true post') (htidy : Tidy true post') :
    FreeLists.Rejoins x (SizeClass.of (b + n + f)) (SizeClass.of f) l₁ l₂ := by
  refine Classical.byContradiction fun hr => ?_
  rcases hs.astray hr with ⟨z, hlink, hz⟩
  rcases hf.not_led_back ht (SizeClass.of_lt_count _) hlink with ⟨hmem, hzx⟩
  rcases hz.resolve_left hzx with ⟨hne, hzk⟩
  have hx := h.settled.drawn.located h.located
  simp only [frameSize] at hx
  -- it is a free block of one size before and after
  rcases h.settled.listed.located (FreeLists.mem_push.2 (.inr hzk)) with ⟨w, hw, hwk, -⟩
  rcases ht.listed.located hmem with ⟨w', hw', hwj, -⟩
  rcases h.settled.drawn.tagsAt hw with ⟨p, htag⟩
  rcases ht.drawn.tagsAt hw' with ⟨p', htag'⟩
  have hzb := h.settled.drawn.located hw
  have hzb' := ht.drawn.located hw'
  simp only [frameSize] at hzb hzb'
  have hza := hf.apart ht hmem hzx
  have hznext : z ≠ x + g := by
    rintro rfl
    have huse := hpost.allocated htidy
    rw [htag'.allocated] at huse
    cases huse
  have hsame : t.tagAt z = r.tagAt z := by
    refine tagAt_congr (by omega) fun i hi hi' => ?_
    have htagi : IsTag (lo + frameSize) (pre ++ ⟨b + n + f, false⟩ :: post) i :=
      ⟨z, _, hw, .inl ⟨by omega, hi'⟩⟩
    rw [hf.byte_eq (by omega) hpost htidy (by simp only [frameSize]; omega) (by omega) (by omega)
      fun a ha hai => ?_, h.byte_tag hs htagi (by omega)]
    rcases h.located_first hs (SizeClass.of_lt_count g) ha with ⟨k, hk⟩
    exact not_isLink_of_isTag h.settled.large htagi ⟨a, _, hk, rfl, hai.1, by omega⟩
  have hww : w' = w :=
    calc w' = (t.tagAt z).size := htag'.size.symm
      _ = (r.tagAt z).size := by rw [hsame]
      _ = w := htag.size
  -- a size has one class
  exact hne (hwj.symm.trans (hww ▸ hwk))

/-- What is below keeps its tags. -/
theorem tagged_below (h : r.Released lo x b n f pre post rest l₁ l₂)
    (hs : r.Gathered s lo x b n f rest l₁ l₂) {g : Nat} (hg : 16 ≤ g) (hf : s.Finished t lo x g) :
    t.Tagged (lo + frameSize) false pre := by
  have hup := h.drawnUpTo hs
  rcases hf.told with ⟨u, ht, -, hbyte⟩
  refine hup.tagged.congr (by simp only [frameSize]; omega) fun i hi => ?_
  have hb := hi.bounds hup.tagged.large
  rw [h.stop_eq] at hb
  rw [ht, byte_setPrevFree_below (by omega), hbyte i hb.1 (by omega) (by omega) fun a ha hai => ?_]
  rcases h.located_first hs (SizeClass.of_lt_count g) ha with ⟨k, hk⟩
  exact not_isLink_of_isTag h.settled.large (IsTag.append.2 (.inl hi))
    ⟨a, _, hk, rfl, hai.1, by omega⟩

/-- There are no lists but those of the classes. -/
theorem push_kept_eq_nil (h : r.Released lo x b n f pre post rest l₁ l₂) {c g : Nat}
    (hc : ¬c < SizeClass.count) : Plan.push (kept rest x b n f l₁ l₂) x g c = [] := by
  have hj := SizeClass.of_lt_count (b + n + f)
  have hg := SizeClass.of_lt_count g
  refine List.eq_nil_iff_forall_not_mem.2 fun y hy => hc ?_
  rcases FreeLists.mem_push.1 hy with ⟨hcg, -⟩ | hy
  · exact hcg ▸ hg
  · unfold kept FreeLists.withList at hy
    rw [if_neg (by omega)] at hy
    rcases h.settled.listed.located (FreeLists.mem_push.2 (.inr hy)) with ⟨m, -, rfl, -⟩
    exact SizeClass.of_lt_count m

/-- A second release that comes through ends with the last steps of a merge. -/
theorem finished_again (h : r.Released lo x b n f pre post rest l₁ l₂) (hb : b ≠ 0)
    {events : List Event} (hrun : (FreeLists.at lo).release r (x + b) = .ok (t, events)) :
    ∃ s : Region, r.Gathered s lo x b n f rest l₁ l₂ ∧ s.Finished t lo x (n + f + (b + n + f)) := by
  rcases h.release_again hb with ⟨s, hs, hagain⟩
  rcases h.large with ⟨hn16, -, -⟩
  rw [hagain] at hrun
  -- all steps before the last ones come through in any case
  rcases Fault.bind_eq_ok.1 hrun with ⟨⟨t', y, ev⟩, hfinish, hdone⟩
  cases hdone
  exact ⟨s, hs, (h.leading hs).finished (by omega) (h.mod_eight hb) hfinish⟩

/-- If the second release settles the region, it was right about the next block and the links. -/
theorem unseen_of_settled (h : r.Released lo x b n f pre post rest l₁ l₂) (hb : b ≠ 0)
    {events : List Event} {es : List Extent} {lists : Nat → List Nat}
    (hrun : (FreeLists.at lo).release r (x + b) = .ok (t, events)) (ht : t.Settled lo es lists) :
    r.Unseen lo x b n f pre rest l₁ l₂ := by
  rcases h.finished_again hb hrun with ⟨s, hs, hf⟩
  rcases h.large with ⟨hn16, -, -⟩
  rcases hf.settled_split ht (by omega) h.stop_eq (h.tagged_below hs (by omega) hf) with
    ⟨post', rfl, hpost, htidy⟩
  have hr := h.rejoins_of_settled hs (by omega) (h.mod_eight hb) hf ht hpost htidy
  rcases hs.right hr with ⟨hrep, hbyte⟩
  rcases hf.chained_after (by omega) ht h.stop_eq hrep with ⟨q, hq⟩
  -- the lists are what the second release has left of them
  have hlists : ∀ c, lists c = Plan.push (kept rest x b n f l₁ l₂) x (n + f + (b + n + f)) c := by
    intro c
    by_cases hc : c < SizeClass.count
    · exact hf.lists_eq_push ht (by omega) hpost htidy hrep hc
    · rw [h.push_kept_eq_nil hc]
      exact ht.listed.eq_nil hc
  have hlisted : Listed (lo + frameSize) (pre ++ ⟨n + f + (b + n + f), false⟩ :: post')
      (Plan.push (kept rest x b n f l₁ l₂) x (n + f + (b + n + f))) 0 0 := by
    rw [← funext hlists]
    exact ht.listed
  have hstop := ht.drawn.stop_eq
  rw [hf.size] at hstop
  have hend := hq.le_size
  refine ⟨hb, hr, q, post', hq.congr (by omega) hs.size.symm fun i hi => ?_, htidy, hlisted⟩
  have habove : x + (n + f + (b + n + f)) ≤ i + 4 := by
    rcases hi with hi | hi
    · exact (hi.bounds hpost.tagged.large).1
    · omega
  exact (hbyte i (by omega) (not_touches_kept h.stop_eq ht.large hstop hlisted hi) (by omega)).symm

/-- Without a gap before the block, the second release comes to its last steps with nothing changed
but the tags of the block. -/
theorem release_first (h : r.Released lo x 0 n f pre post rest l₁ l₂) :
    ∃ s : Region, s.size = r.size ∧ (∀ i, i + 4 < x → s.byte i = r.byte i)
      ∧ (FreeLists.at lo).release r x = (do
          let (t, _, events) ← (FreeLists.at lo).finish s x (0 + n + f) []
          return (t, events)) := by
  have hx := h.settled.drawn.located h.located
  simp only [frameSize] at hx
  have hspan := h.settled.drawn.span
  have hown := h.chained.tagged.1
  have hsize : (r.tagAt x).size = 0 + n + f := hown.size
  have hprev : (r.tagAt x).prevFree = false := hown.prevFree
  have hnext := h.allocated_next
  generalize 0 + n + f = m at hx hsize hnext
  rcases writeFree_told (p := false) (by omega) (by omega) (by omega) (by omega) (by omega)
    (.inl hnext) with ⟨s₁, s, hwrite, hnote, hsize', htag, hafter, hbyte⟩
  rw [← hprev] at hwrite
  -- nothing merges: the block is the first one, and the one behind it is in use
  have huse : (s.tagAt (x + m)).allocated = true := by
    rw [hafter, Tag.allocated_withPrevFree]
    exact hnext
  have hmake : (Tag.make m false false).size = m := Tag.size_make _ _ (by omega) (by omega)
  have hhead : s.header x = .ok (Tag.make m false false) := by
    rw [header_eq (by omega) (by omega), htag]
  have hbefore : if (Tag.make m false false).prevFree then
      ∃ a, s.previous x = .ok a ∧ (none : Option Nat) = some a else (none : Option Nat) = none := by
    rw [Tag.prevFree_make _ _ (by omega) (by omega), if_neg nofun]
  have hfront : (FreeLists.at lo).Absorbs s (Tag.make m false false).size
      (if (s.tagAt (x + m)).allocated then none else some (x + m)) s m := by
    rw [huse, hmake]
    exact ⟨rfl, rfl⟩
  have hback : (FreeLists.at lo).Absorbs s m none s m := ⟨rfl, rfl⟩
  have hmerge := FreeLists.merge_eq hhead (by rw [next_eq (by omega) (by omega), htag, hmake])
    (header_eq (by omega) (by omega)) hbefore hfront hback
  refine ⟨s, hsize', fun i hi => hbyte i (by omega) (by omega) fun hfree => ?_, ?_⟩
  · rw [hnext] at hfree
    cases hfree
  · rw [FreeLists.release, header_eq (by omega) (by omega), Fault.ok_bind, hsize, hwrite,
      Fault.ok_bind, hnote, Fault.ok_bind, hmerge, huse]
    simp

/-- Then it is put into a list that it is the first of. -/
theorem finished_first (h : r.Released lo x 0 n f pre post rest l₁ l₂) {events : List Event}
    (hrun : (FreeLists.at lo).release r x = .ok (t, events)) :
    ∃ s : Region, s.size = r.size ∧ s.Finished t lo x (0 + n + f)
      ∧ (FreeLists.at lo).links.linkAt s
          ((FreeLists.at lo).sentinelAt (SizeClass.of (0 + n + f)) + 4) = some x := by
  have hx := h.settled.drawn.located h.located
  simp only at hx
  have hj := SizeClass.of_lt_count (0 + n + f)
  rcases h.release_first with ⟨s, hsize, hbyte, hagain⟩
  rw [hagain] at hrun
  rcases Fault.bind_eq_ok.1 hrun with ⟨⟨t', y, ev⟩, hfinish, hdone⟩
  cases hdone
  -- the block was the first of its list before, so it is made to follow itself
  have hlink : ∀ c < SizeClass.count,
      (FreeLists.at lo).links.linkAt s ((FreeLists.at lo).sentinelAt c + 4)
        = (Plan.push rest x (0 + n + f) c).head? := by
    intro c hc
    have hsent := (FreeLists.sentinel_lt lo hc).2
    rw [← (h.settled.drawn.lists.strung c hc).next]
    exact Links.linkAt_congr fun i hi hi' => hbyte i (by omega)
  have hlead : s.Leading lo x := by
    refine ⟨hx.1, by omega, hsize ▸ h.settled.drawn.span, fun c hc a ha => ?_⟩
    rw [hlink c hc] at ha
    rcases h.settled.listed.located (List.mem_of_mem_head? ha) with ⟨k, hk, -, -⟩
    have := h.beside hk
    omega
  refine ⟨s, hsize, hlead.finished (by omega) hx.2.2.2.2 hfinish, ?_⟩
  rw [hlink _ hj, Plan.push, if_pos rfl]
  rfl

theorem not_settled_of_first (h : r.Released lo x 0 n f pre post rest l₁ l₂) {events : List Event}
    {es : List Extent} {lists : Nat → List Nat}
    (hrun : (FreeLists.at lo).release r x = .ok (t, events)) : ¬t.Settled lo es lists := by
  intro ht
  rcases h.finished_first hrun with ⟨s, -, hf, hlink⟩
  exact (hf.not_led_back ht (SizeClass.of_lt_count _) hlink).2 rfl

/-- The second release moves no end. -/
theorem size_again (h : r.Released lo x b n f pre post rest l₁ l₂) {events : List Event}
    (hrun : (FreeLists.at lo).release r (x + b) = .ok (t, events)) : t.size = r.size := by
  by_cases hb : b = 0
  · subst hb
    rcases h.finished_first hrun with ⟨s, hsize, hf, -⟩
    calc t.size = s.size := hf.size
      _ = r.size := hsize
  · rcases h.finished_again hb hrun with ⟨s, hs, hf⟩
    calc t.size = s.size := hf.size
      _ = r.size := hs.size

/-- The region that a second release leaves is settled exactly if it goes unseen. -/
theorem settled_again_iff (h : r.Released lo x b n f pre post rest l₁ l₂) :
    (∃ t events es lists, (FreeLists.at lo).release r (x + b) = .ok (t, events)
        ∧ t.Settled lo es lists)
      ↔ r.Unseen lo x b n f pre rest l₁ l₂ := by
  constructor
  · rintro ⟨t, events, es, lists, hrun, ht⟩
    by_cases hb : b = 0
    · subst hb
      exact absurd ht (h.not_settled_of_first hrun)
    · exact h.unseen_of_settled hb hrun ht
  · exact h.settled_of_unseen

end Released

/-- The links of the block after are those that it had before the first release. -/
theorem Settled.drop_split
    (h : r.Settled lo (pre ++ gap b ++ ⟨n, true⟩ :: (gap f ++ post)) lists)
    (hx : stop (lo + frameSize) pre = x) (hm : b + n + f = m)
    (hsplit : lists (SizeClass.of f) = l₁ ++ (x + b + n) :: l₂) (hf : f ≠ 0) :
    Plan.drop lists x (x + m) (SizeClass.of f) = l₁.filter (· ≠ x) ++ l₂.filter (· ≠ x)
      ∧ (l₁ ++ l₂).Nodup := by
  have hn : 16 ≤ n := h.large.size (mem_located_between hx)
  have hnd := (List.nodup_cons.1 (h.drawn.lists.nodup _ (SizeClass.of_lt_count f))).2
  rw [hsplit] at hnd
  have hnd' := List.nodup_cons.1 (List.perm_middle.nodup_iff.1 hnd)
  -- of the blocks that join, only the gap before this one can be beside it in its list
  have honly : ∀ z ∈ l₁ ++ l₂, x ≤ z → z < x + m → z = x := by
    intro z hz hxz hzx
    have hmem : z ∈ lists (SizeClass.of f) := by
      rw [hsplit]
      rcases List.mem_append.1 hz with hz | hz
      · exact List.mem_append_left _ hz
      · exact List.mem_append_right _ (List.mem_cons_of_mem _ hz)
    rcases h.listed.located hmem with ⟨k, hk, -, -⟩
    rcases located_between h.large hx hk hxz (by simp only; omega) with
      ⟨-, hzb⟩ | ⟨-, heq⟩ | ⟨-, hzf⟩
    · exact hzb
    · cases heq
    · exact absurd (hzf ▸ hz) hnd'.1
  have hfilter : ∀ z ∈ l₁ ++ l₂, decide (¬(x ≤ z ∧ z < x + m)) = decide (z ≠ x) := by
    intro z hz
    refine decide_eq_decide.2 (not_congr ⟨fun hc => honly z hz hc.1 hc.2, fun hc => ?_⟩)
    omega
  refine ⟨?_, hnd'.2⟩
  rw [Plan.drop, hsplit, List.filter_append, List.filter_cons_of_neg (by simp; omega)]
  congr 1
  · exact List.filter_congr fun z hz => hfilter z (List.mem_append_left _ hz)
  · exact List.filter_congr fun z hz => hfilter z (List.mem_append_right _ hz)

/-- A release leaves all this. -/
theorem Settled.released
    (h : r.Settled lo (pre ++ gap b ++ ⟨n, true⟩ :: (gap f ++ post)) lists)
    (hx : stop (lo + frameSize) pre = x) (hpre : lastFree false pre = false)
    (hpost : Tidy true post) (halone : f = 0 → l₁ = [] ∧ l₂ = [])
    (hsplit : f ≠ 0 → lists (SizeClass.of f) = l₁ ++ (x + b + n) :: l₂) :
    ∃ t events, (FreeLists.at lo).release r (x + b) = .ok (t, events) ∧ t.size = r.size
      ∧ t.Released lo x b n f pre post (Plan.drop lists x (x + (b + n + f))) l₁ l₂ := by
  rcases h.release_steps hx rfl hpre hpost with
    ⟨s, t, hrun, hdrawn, -, hsize, hsettled, -, hkept⟩
  have hn16 : 16 ≤ n := h.large.size (mem_located_between hx)
  have hb16 : b ≠ 0 → 16 ≤ b := fun hb => h.large.size (mem_located_before hx hb)
  have hf16 : f ≠ 0 → 16 ≤ f := fun hf => h.large.size (mem_located_behind hx hf)
  refine ⟨t, _, hrun, hsize, hsettled, hx, fun hb => ?_, ⟨hn16, hb16, hf16⟩, halone,
    fun hf => (h.drop_split hx rfl (hsplit hf) hf).1, ?_, fun c hc => ?_⟩
  · refine (hdrawn.remains hx hb hsplit).congr (hb16 hb) hn16 hf16 rfl fun i hi hi' => ?_
    exact hkept i (kept_inside hsettled.large hx hi hi')
  · by_cases hf : f = 0
    · rcases halone hf with ⟨rfl, rfl⟩
      exact List.nodup_nil
    · exact (h.drop_split hx rfl (hsplit hf) hf).2
  · have := (FreeLists.mem_drop.1 hc).2
    omega

end Region

end BoundaryTag
