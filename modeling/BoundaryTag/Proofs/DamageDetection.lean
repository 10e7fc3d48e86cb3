import BoundaryTag.Audit.Damage
import BoundaryTag.Audit.Outline
import BoundaryTag.Proofs.ClientInvariant
import BoundaryTag.Proofs.PlainTags
import BoundaryTag.Proofs.CheckVerdict

/-!
# DamageDetection — single faults do not go unseen

In a region that holds a plan, a word which says what other words say as well cannot be another one.

* `FreeLists.Strung.next_iff`: the links of a list onwards are known from those back.
* `Region.Chained.same`: headers tell the blocks, even if one of them is wrong about its flags.
* `Region.Holds.next_kept` and its like: if the region holds a plan with another word at such an
  address, then it is the same word.
* `Heap.guarded_reported` and `Heap.headed_reported`: so the check has something to report, wherever
  a link that was bent leads to. `Client.Reaches.damage_reported` says so of every state that a
  client reaches.
-/

namespace BoundaryTag

open Extent

/-! ## Flags -/

namespace Tag

theorem toNat_word_flip (t : Tag) (a p : Bool) : (t.flip a p).word.toNat
    = t.word.toNat / 4 * 4 + (xor t.allocated a).toNat + 2 * (xor t.prevFree p).toNat := by
  have h := t.word.toNat_lt
  have ha := (xor t.allocated a).toNat_le
  have hp := (xor t.prevFree p).toNat_le
  rw [flip, UInt32.toNat_ofNat']
  omega

@[simp] theorem size_flip (t : Tag) (a p : Bool) : (t.flip a p).size = t.size := by
  have ha := (xor t.allocated a).toNat_le
  have hp := (xor t.prevFree p).toNat_le
  rw [size, size, toNat_word_flip]
  omega

@[simp] theorem allocated_flip (t : Tag) (a p : Bool) :
    (t.flip a p).allocated = xor t.allocated a := by
  rw [allocated, toNat_word_flip]
  cases xor t.allocated a <;> cases xor t.prevFree p <;> simp <;> omega

@[simp] theorem prevFree_flip (t : Tag) (a p : Bool) :
    (t.flip a p).prevFree = xor t.prevFree p := by
  rw [prevFree, toNat_word_flip]
  cases xor t.allocated a <;> cases xor t.prevFree p <;> simp <;> omega

/-- A tag with a flag turned over is another tag. -/
theorem flip_ne {t : Tag} {a p : Bool} (h : a = true ∨ p = true) : t.flip a p ≠ t := by
  intro heq
  rcases h with rfl | rfl
  · have := congrArg allocated heq
    rw [allocated_flip] at this
    cases t.allocated <;> simp at this
  · have := congrArg prevFree heq
    rw [prevFree_flip] at this
    cases t.prevFree <;> simp at this

end Tag

/-! ## Links -/

/-- A link tells its word. -/
theorem Links.word_eq {l : Links} {r s : Region} {a b : Nat} (h : l.linkAt r a = l.linkAt s b) :
    r.word a = s.word b := by
  unfold linkAt at h
  split at h <;> split at h
  case isTrue.isTrue ha hb => rw [ha, hb]
  case isTrue.isFalse => cases h
  case isFalse.isTrue => cases h
  case isFalse.isFalse => exact UInt32.toNat.inj (Nat.add_left_cancel (Option.some.inj h))

namespace FreeLists

variable {l : FreeLists} {r : Region} {a y z : Nat} {nodes : List Nat}

/-- A link onwards is answered. -/
theorem Strung.answered (h : l.Strung r a nodes) (hy : y ∈ a :: nodes)
    (hz : l.links.linkAt r (y + 4) = some z) : z ∈ nodes ∧ l.links.linkAt r z = some y := by
  have hfirst : ∀ {a : Nat} {nodes : List Nat}, l.Strung r a nodes →
      l.links.linkAt r (a + 4) = some z → z ∈ nodes ∧ l.links.linkAt r z = some a := by
    intro a nodes h hz
    rw [h.next] at hz
    rcases List.head?_eq_some_iff.1 hz with ⟨tail, rfl⟩
    exact ⟨List.mem_cons_self, h.2.1⟩
  rcases List.mem_cons.1 hy with rfl | hy
  · exact hfirst h hz
  · rcases List.append_of_mem hy with ⟨l₁, l₂, rfl⟩
    rcases hfirst h.append.2 hz with ⟨hmem, hback⟩
    exact ⟨List.mem_append_right l₁ (List.mem_cons_of_mem y hmem), hback⟩

/-- Every block of a list links back to something that links to it. -/
theorem Strung.exists_before (h : l.Strung r a nodes) (hz : z ∈ nodes) :
    ∃ y ∈ a :: nodes, l.links.linkAt r z = some y ∧ l.links.linkAt r (y + 4) = some z := by
  induction nodes generalizing a with
  | nil => cases hz
  | cons b nodes ih =>
      rcases List.mem_cons.1 hz with rfl | hz
      · exact ⟨a, List.mem_cons_self, h.2.1, h.1⟩
      · rcases ih h.2.2 hz with ⟨y, hy, hback, hnext⟩
        exact ⟨y, List.mem_cons_of_mem a hy, hback, hnext⟩

/-- The links onwards are known from the links back. -/
theorem Strung.next_iff (h : l.Strung r a nodes) (hy : y ∈ a :: nodes) :
    l.links.linkAt r (y + 4) = some z ↔ z ∈ nodes ∧ l.links.linkAt r z = some y := by
  refine ⟨h.answered hy, ?_⟩
  rintro ⟨hz, hback⟩
  rcases h.exists_before hz with ⟨x, -, hx, hnext⟩
  obtain rfl : x = y := Option.some.inj (hx.symm.trans hback)
  exact hnext

end FreeLists

/-! ## Headers -/

namespace Region

variable {r s : Region} {bp lo x y a n k : Nat} {p : Bool} {e : Extent} {es es' : List Extent}
  {lists lists' : Nat → List Nat} {w : UInt32}

/-- The headers tell the blocks, even if one of them is wrong about its flags: the header after it
knows better. -/
theorem Chained.same (h : r.Chained bp p es) (h' : s.Chained bp p es')
    (hsize : ∀ y ∈ heads bp es, (s.tagAt y).size = (r.tagAt y).size)
    (hother : ∀ y ∈ heads bp es, y ≠ x → s.tagAt y = r.tagAt y) : es' = es := by
  induction es generalizing bp p es' with
  | nil =>
      cases es' with
      | nil => rfl
      | cons e' es' =>
          -- an epilogue is not the header of a block
          have hhead := hsize bp (mem_heads_self bp [])
          have hlarge : 16 ≤ e'.size := h'.tagged.1.large
          have hempty : (r.tagAt bp).size = 0 := h.ended.size
          rw [h'.tagged.1.size] at hhead
          omega
  | cons e es ih =>
      have hlarge : 16 ≤ e.size := h.tagged.1.large
      have hhead := hsize bp (mem_heads_self bp _)
      rw [h.tagged.1.size] at hhead
      cases es' with
      | nil =>
          have hempty : (s.tagAt bp).size = 0 := h'.ended.size
          omega
      | cons e' es' =>
          rw [h'.tagged.1.size] at hhead
          have htail := h.tail
          have htail' := h'.tail
          rw [hhead] at htail'
          have hflag : e'.allocated = e.allocated := by
            by_cases hx : bp = x
            · -- the next header is right about this block
              have hnext : s.tagAt (bp + e.size) = r.tagAt (bp + e.size) :=
                hother _ (mem_heads_cons.2 (.inr (mem_heads_self _ es))) (by omega)
              have hp := htail'.prevFree
              rw [hnext, htail.prevFree] at hp
              exact (Bool.not_inj hp).symm
            · have htag := hother bp (mem_heads_self bp _) hx
              rw [← h'.tagged.1.allocated, htag, h.tagged.1.allocated]
          rw [hflag] at htail'
          have hrest := ih htail htail' (fun y hy => hsize y (mem_heads_cons.2 (.inr hy)))
            fun y hy => hother y (mem_heads_cons.2 (.inr hy))
          rw [hrest]
          cases e
          cases e'
          cases hhead
          cases hflag
          rfl

/-- The blocks tell the flags of all headers. -/
theorem Chained.flags (h : r.Chained bp p es) (h' : s.Chained bp p es) (hy : y ∈ heads bp es) :
    (s.tagAt y).allocated = (r.tagAt y).allocated
      ∧ (s.tagAt y).prevFree = (r.tagAt y).prevFree := by
  induction es generalizing bp p with
  | nil =>
      obtain rfl : y = bp := mem_heads_nil.1 hy
      exact ⟨h'.ended.allocated.trans h.ended.allocated.symm, h'.prevFree.trans h.prevFree.symm⟩
  | cons e es ih =>
      rcases mem_heads_cons.1 hy with rfl | hy
      · have hflag := h'.tagged.1.allocated.trans h.tagged.1.allocated.symm
        exact ⟨hflag, h'.prevFree.trans h.prevFree.symm⟩
      · exact ih h.tail h'.tail hy

/-- A header is not inside of a block. -/
theorem heads_beside (hl : Large es) (hx : (x, e) ∈ located bp es) (hy : y ∈ heads bp es) :
    y ≤ x ∨ x + e.size ≤ y := by
  rcases mem_heads.1 hy with ⟨f, hf⟩ | rfl
  · have hf16 := hl.size hf
    rcases located_apart hl hx hf with ⟨rfl, -⟩ | hle | hle <;> omega
  · exact .inr (located_bounds hx).2

theorem Holds.strung (h : r.Holds ⟨lo, es, lists⟩) (hk : k < SizeClass.count) :
    (FreeLists.at lo).Strung r ((FreeLists.at lo).sentinelAt k) (lists k) :=
  h.threads k hk

/-- The links of a list are in the heap, and in no header. -/
theorem Holds.links_apart (h : r.Holds ⟨lo, es, lists⟩) (hk : k < SizeClass.count)
    (hx : x ∈ (FreeLists.at lo).sentinelAt k :: lists k) :
    x + 8 ≤ r.size ∧ ∀ y ∈ heads (lo + frameSize) es, y ≤ x ∨ x + 16 ≤ y := by
  have hlarge := h.chained.tagged.large
  rcases List.mem_cons.1 hx with rfl | hx
  · have hs := FreeLists.sentinel_lt lo hk
    have hle := h.chained.le_size
    simp only [frameSize] at hs hle
    refine ⟨by omega, fun y hy => ?_⟩
    have hy' := le_of_mem_heads hy
    simp only [frameSize] at hy'
    exact .inr (by omega)
  · rcases h.listed.located hx with ⟨n, hn, -, -⟩
    have hn16 := hlarge.size hn
    have hb := located_bounds hn
    rw [h.chained.stop_eq] at hb
    simp only at hn16 hb
    refine ⟨by omega, fun y hy => ?_⟩
    have hbeside := heads_beside hlarge hn hy
    simp only at hbeside
    omega

/-- A block and what links to it share no bytes. -/
theorem Holds.blocks_apart (h : r.Holds ⟨lo, es, lists⟩) (hk : k < SizeClass.count)
    (hx : x ∈ (FreeLists.at lo).sentinelAt k :: lists k) (hy : y ∈ lists k) :
    x = y ∨ x + 16 ≤ y ∨ y + 16 ≤ x := by
  have hlarge := h.chained.tagged.large
  rcases h.listed.located hy with ⟨m, hm, -, -⟩
  rcases List.mem_cons.1 hx with rfl | hx
  · have hs := FreeLists.sentinel_lt lo hk
    have hb := located_bounds hm
    exact .inr (.inl (Nat.le_trans hs.2 hb.1))
  · rcases h.listed.located hx with ⟨n, hn, -, -⟩
    have hm16 := hlarge.size hm
    have hn16 := hlarge.size hn
    have hapart := located_apart hlarge hn hm
    simp only at hm16 hn16 hapart
    omega

/-! ## One word -/

section Holds

variable (h : r.Holds ⟨lo, es, lists⟩) (h' : (r.setWord a w).Holds ⟨lo, es', lists'⟩)

include h h'

/-- If the word is in no header then the blocks are the same. -/
theorem Holds.same_of_apart (hapart : ∀ y ∈ heads (lo + frameSize) es, a + 4 ≤ y - 4 ∨ y ≤ a) :
    es' = es := by
  have htag : ∀ y ∈ heads (lo + frameSize) es, (r.setWord a w).tagAt y = r.tagAt y := by
    intro y hy
    have hle := le_of_mem_heads hy
    simp only [frameSize] at hle
    exact tagAt_setWord_of_disjoint (by omega) (hapart y hy)
  exact h.chained.same (x := 0) h'.chained (fun y hy => by rw [htag y hy]) fun y hy _ => htag y hy

/-- The footer of the prologue repeats its header. -/
theorem Holds.prologueFooter_kept (ha : a = lo + prologueSize) : w = r.word a := by
  have hle : lo + frameSize ≤ r.size := h.chained.le_size
  simp only [frameSize] at hle
  have hfit : a + 4 ≤ r.size := by simp only [prologueSize] at ha; omega
  have hapart : a + 4 ≤ lo + 8 - 4 ∨ lo + 8 ≤ a := by simp only [prologueSize] at ha; omega
  have hfooter := h'.footer
  simp only at hfooter
  rw [← ha, word_setWord w hfit, tagAt_setWord_of_disjoint (by omega) hapart] at hfooter
  calc w = (r.tagAt (lo + 8)).word := hfooter
    _ = r.word (lo + prologueSize) := h.footer.symm
    _ = r.word a := by rw [ha]

/-- So the header of the prologue is the one that its footer repeats. -/
theorem Holds.prologueHeader_kept (ha : a = lo + 8 - 4) : w = r.word a := by
  have hle : lo + frameSize ≤ r.size := h.chained.le_size
  simp only [frameSize] at hle
  have hapart : lo + prologueSize + 4 ≤ a ∨ a + 4 ≤ lo + prologueSize := by
    simp only [prologueSize]
    omega
  have hfooter := h'.footer
  simp only at hfooter
  rw [word_setWord_of_disjoint hapart, tagAt, ← ha, word_setWord w (by omega)] at hfooter
  calc w = r.word (lo + prologueSize) := hfooter.symm
    _ = (r.tagAt (lo + 8)).word := h.footer
    _ = r.word a := by rw [ha, tagAt]

/-- The footer of a free block repeats its header. -/
theorem Holds.footer_kept (hx : (x, ⟨n, false⟩) ∈ located (lo + frameSize) es)
    (ha : a = x + n - 8) : w = r.word a := by
  have hlarge := h.chained.tagged.large
  have hn := hlarge.size hx
  have hb := located_bounds hx
  rw [h.chained.stop_eq] at hb
  simp only at hn hb
  have hsame : es' = es := h.same_of_apart h' fun y hy => by
    have hy' := heads_beside hlarge hx hy
    simp only at hy'
    omega
  subst hsame
  rcases h.chained.tagged.at hx with ⟨p, ht⟩
  rcases h'.chained.tagged.at hx with ⟨q, ht'⟩
  have hfooter := ht'.footer rfl
  simp only [frameSize] at hb
  rw [← ha, word_setWord w (by omega), tagAt_setWord_of_disjoint (by omega) (by omega)] at hfooter
  calc w = (r.tagAt x).word := hfooter
    _ = r.word (x + n - 8) := (ht.footer rfl).symm
    _ = r.word a := by rw [ha]

/-- The flags of a header follow from the headers on either side. -/
theorem Holds.flags_kept (hx : x ∈ heads (lo + frameSize) es) (ha : a = x - 4)
    (hsize : (⟨w⟩ : Tag).size = (r.tagAt x).size) :
    (⟨w⟩ : Tag).allocated = (r.tagAt x).allocated
      ∧ (⟨w⟩ : Tag).prevFree = (r.tagAt x).prevFree := by
  have hlarge := h.chained.tagged.large
  have hle : ∀ y ∈ heads (lo + frameSize) es, lo + 128 ≤ y := fun y hy => le_of_mem_heads hy
  have hxs : x ≤ r.size := by
    rcases mem_heads.1 hx with ⟨e, he⟩ | rfl
    · have hb := located_bounds he
      rw [h.chained.stop_eq] at hb
      omega
    · exact Nat.le_of_eq h.chained.stop_eq
  have hself : (r.setWord a w).tagAt x = ⟨w⟩ := by
    have := hle x hx
    rw [ha]
    exact tagAt_setWord (by omega) hxs
  have hother : ∀ y ∈ heads (lo + frameSize) es, y ≠ x → (r.setWord a w).tagAt y = r.tagAt y := by
    intro y hy hyx
    have hyle := hle y hy
    have hxle := hle x hx
    refine tagAt_setWord_of_disjoint (by omega) ?_
    -- between two headers is a block
    rcases mem_heads.1 hx with ⟨e, he⟩ | hxe
    · have hbeside := heads_beside hlarge he hy
      have he16 := hlarge.size he
      rcases mem_heads.1 hy with ⟨f, hf⟩ | rfl
      · have hf16 := hlarge.size hf
        have hbeside' := heads_beside hlarge hf hx
        omega
      · have := (located_bounds he).2
        omega
    · rcases mem_heads.1 hy with ⟨f, hf⟩ | hye
      · have hf16 := hlarge.size hf
        have hbeside' := heads_beside hlarge hf hx
        have := (located_bounds hf).2
        omega
      · exact absurd (hye.trans hxe.symm) hyx
  have hsame : es' = es := by
    refine h.chained.same (x := x) h'.chained (fun y hy => ?_) hother
    by_cases hyx : y = x
    · rw [hyx, hself, hsize]
    · rw [hother y hy hyx]
  have hflags := h.chained.flags (hsame ▸ h'.chained) hx
  rwa [hself] at hflags

/-- A word that is in no header leaves the same blocks in the lists. -/
theorem Holds.same_members (hapart : ∀ y ∈ heads (lo + frameSize) es, a + 4 ≤ y - 4 ∨ y ≤ a) :
    x ∈ lists' k ↔ x ∈ lists k := by
  have hsame : es' = es := h.same_of_apart h' hapart
  subst hsame
  exact (h'.exact k x).trans (h.exact k x).symm

/-- A link back answers the link that leads to the block. -/
theorem Holds.back_kept (hk : k < SizeClass.count) (hx : x ∈ lists k) (ha : a = x) :
    w = r.word a := by
  subst ha
  rcases h.links_apart hk (List.mem_cons_of_mem _ hx) with ⟨hsize, hheads⟩
  have hmem : ∀ y, y ∈ lists' k ↔ y ∈ lists k := fun y =>
    h.same_members h' fun z hz => by have := hheads z hz; omega
  rcases (h.strung hk).exists_before hx with ⟨y, hy, hback, hnext⟩
  -- what leads to the block is as it was, and it is the answer again
  have hnext' : (FreeLists.at lo).links.linkAt (r.setWord a w) (y + 4) = some a := by
    rw [Links.linkAt_setWord_of_disjoint (by have := h.blocks_apart hk hy hx; omega), hnext]
  have hy' : y ∈ (FreeLists.at lo).sentinelAt k :: lists' k := by
    rw [List.mem_cons, hmem]
    exact List.mem_cons.1 hy
  have hback' := ((h'.strung hk).answered hy' hnext').2
  rw [← word_setWord (r := r) w (by omega : a + 4 ≤ r.size)]
  exact Links.word_eq (hback'.trans hback.symm)

/-- A link onwards is known from the links back. -/
theorem Holds.next_kept (hk : k < SizeClass.count)
    (hx : x ∈ (FreeLists.at lo).sentinelAt k :: lists k) (ha : a = x + 4) : w = r.word a := by
  subst ha
  rcases h.links_apart hk hx with ⟨hsize, hheads⟩
  have hmem : ∀ y, y ∈ lists' k ↔ y ∈ lists k := fun y =>
    h.same_members h' fun z hz => by have := hheads z hz; omega
  have hx' : x ∈ (FreeLists.at lo).sentinelAt k :: lists' k := by
    rw [List.mem_cons, hmem]
    exact List.mem_cons.1 hx
  have hlink : (FreeLists.at lo).links.linkAt (r.setWord (x + 4) w) (x + 4)
      = (FreeLists.at lo).links.linkAt r (x + 4) := by
    apply Option.ext
    intro z
    rw [(h'.strung hk).next_iff hx', (h.strung hk).next_iff hx, hmem]
    refine and_congr_right fun hz => ?_
    rw [Links.linkAt_setWord_of_disjoint (by have := h.blocks_apart hk hx hz; omega)]
  rw [← word_setWord (r := r) w (by omega : x + 4 + 4 ≤ r.size)]
  exact Links.word_eq hlink

end Holds

end Region

/-! ## What the check says -/

namespace Heap

variable {h : Heap} {es : List Extent} {lists : Nat → List Nat} {a bp : Nat} {w : UInt32}

theorem overwrite_eq : h.overwrite a w = h.withRegion (h.region.setWord a w) := rfl

@[simp] theorem region_overwrite : (h.overwrite a w).region = h.region.setWord a w := by
  rw [overwrite_eq, region_withRegion]

@[simp] theorem lo_overwrite : (h.overwrite a w).lo = h.lo := by
  rw [overwrite_eq, lo_withRegion]

/-- A word that leaves no plan in the region is reported. -/
theorem overwrite_reported (hs : h.region.Holds ⟨h.lo, es, lists⟩)
    (hno : ∀ es' lists', ¬(h.region.setWord a w).Holds ⟨h.lo, es', lists'⟩) :
    ∃ v vs, (h.overwrite a w).check = .ok (v :: vs) := by
  have hlo : (h.overwrite a w).lo + frameSize ≤ (h.overwrite a w).region.size := by
    rw [region_overwrite, lo_overwrite, Region.size_setWord]
    exact hs.chained.le_size
  rcases check_total hlo with ⟨vs, hvs⟩
  cases vs with
  | nil =>
      rcases holds_of_check hvs with ⟨es', lists', hs'⟩
      rw [region_overwrite, lo_overwrite] at hs'
      exact absurd hs' (hno es' lists')
  | cons v vs => exact ⟨v, vs, hvs⟩

/-- Every other word in a link or a footer is reported. -/
theorem guarded_reported (hs : h.region.Holds ⟨h.lo, es, lists⟩)
    (ha : (h.surveyOf es lists).Guarded a) (hw : w ≠ h.region.word a) :
    ∃ v vs, (h.overwrite a w).check = .ok (v :: vs) := by
  refine overwrite_reported hs fun es' lists' hs' => hw ?_
  have hlisted : ∀ {b}, b ∈ (h.surveyOf es lists).chain.blocks → b.isFree = true →
      ∃ n, (b.addr, ⟨n, false⟩) ∈ located (h.lo + frameSize) es ∧ b.tag.size = n
        ∧ b.addr ∈ lists (SizeClass.of n) := by
    intro b hb hfree
    rcases List.mem_map.1 hb with ⟨⟨x, ⟨n, allocated⟩⟩, hx, rfl⟩
    rcases hs.chained.tagged.at hx with ⟨p, ht⟩
    rw [Region.isFree_blockAt, ht.allocated] at hfree
    obtain rfl : allocated = false := by simpa using hfree
    exact ⟨n, hx, ht.size, (hs.listed _ x).2 ⟨by omega, n, hx, rfl⟩⟩
  cases ha with
  | first known => exact hs.next_kept hs' known List.mem_cons_self rfl
  | back mem free =>
      rcases hlisted mem free with ⟨n, -, -, hl⟩
      exact hs.back_kept hs' (SizeClass.of_lt_count n) hl rfl
  | next mem free =>
      rcases hlisted mem free with ⟨n, -, -, hl⟩
      exact hs.next_kept hs' (SizeClass.of_lt_count n) (List.mem_cons_of_mem _ hl) rfl
  | footer mem free =>
      rcases hlisted mem free with ⟨n, hn, hsize, -⟩
      exact hs.footer_kept hs' hn (by rw [hsize])
  | prologue => exact hs.prologueFooter_kept hs' (by show h.lo + 8 + 120 - 8 = h.lo + 120; omega)

/-- Every header with a flag turned over is reported. -/
theorem headed_reported {allocated prevFree : Bool} (hs : h.region.Holds ⟨h.lo, es, lists⟩)
    (hbp : (h.surveyOf es lists).Headed bp) (hflip : allocated = true ∨ prevFree = true) :
    ∃ v vs, (h.overwrite (bp - 4) ((h.region.tagAt bp).flip allocated prevFree).word).check
      = .ok (v :: vs) := by
  refine overwrite_reported hs fun es' lists' hs' => ?_
  have hblock : bp ∉ heads (h.lo + frameSize) es := by
    intro hx
    rcases hs.flags_kept hs' hx rfl (Tag.size_flip _ _ _) with ⟨halloc, hprev⟩
    rcases hflip with rfl | rfl
    · have hne : xor (h.region.tagAt bp).allocated true = (h.region.tagAt bp).allocated :=
        (Tag.allocated_flip _ _ _).symm.trans halloc
      simp at hne
    · have hne : xor (h.region.tagAt bp).prevFree true = (h.region.tagAt bp).prevFree :=
        (Tag.prevFree_flip _ _ _).symm.trans hprev
      simp at hne
  cases hbp with
  | prologue =>
      have hword := hs.prologueHeader_kept hs' rfl
      exact Tag.flip_ne hflip (congrArg Tag.mk hword)
  | block mem =>
      rcases List.mem_map.1 mem with ⟨⟨x, e⟩, hx, rfl⟩
      exact hblock (mem_heads.2 (.inl ⟨e, hx⟩))
  | epilogue => exact hblock (mem_heads.2 (.inr hs.chained.stop_eq.symm))

end Heap

/-- In every state that a client reaches, the check finds nothing, and it tells a single fault in
what the heap keeps twice. Whatever is written over a link of a sentinel onwards, over a link of a
free block, or over a footer is reported unless it was there before, and so are flags that are
turned over in a header. -/
theorem Client.Reaches.damage_reported {source : Source} {config : Config} {c : Client}
    (hc : Reaches source config c) :
    c.heap.check = .ok [] ∧ ∃ s, c.heap.audit = .ok (.survey s)
      ∧ (∀ a w, s.Guarded a → w ≠ c.heap.region.word a →
          ∃ v vs, (c.heap.overwrite a w).check = .ok (v :: vs))
      ∧ ∀ bp allocated prevFree, s.Headed bp → allocated = true ∨ prevFree = true →
          ∃ v vs, (c.heap.overwrite (bp - 4)
            ((c.heap.region.tagAt bp).flip allocated prevFree).word).check = .ok (v :: vs) := by
  rcases hc.keeps with ⟨es, hk⟩
  rcases hk.settled with ⟨lists, hs⟩
  refine ⟨Heap.check_of_holds hs.holds, _, Heap.audit_eq hs, ?_, ?_⟩
  · intro a w ha hw
    exact Heap.guarded_reported hs.holds ha hw
  · intro bp allocated prevFree hbp hflip
    exact Heap.headed_reported hs.holds hbp hflip

/-- The link from the free block at 168 is bent into the payload at 200, where a client has written
what looks like a free block that links back, or a header is turned over. -/
theorem Client.damage_reported_of_forged_block :
    ∃ c, Reaches (.buffer 4096) ⟨64, 64⟩ c ∧ c.live = [(200, 40), (152, 12)]
      ∧ [204, 208, 212].map c.heap.region.word = [32, 168, 0] ∧ c.heap.check = .ok []
      ∧ (∃ v vs, (c.heap.overwrite 172 208).check = .ok (v :: vs))
      ∧ ∃ v vs, (c.heap.overwrite 148 ((c.heap.region.tagAt 152).flip true true).word).check
          = .ok (v :: vs) := by
  have hrun : (runFrom (.buffer 4096) ⟨64, 64⟩ [.allocate 20, .allocate 12, .allocate 28,
      .allocate 40, .free (some 128), .free (some 168),
      .write 200 4 ⟨#[32, 0, 0, 0, 168, 0, 0, 0, 0, 0, 0, 0]⟩]).map (fun c => (c.live,
        [204, 208, 212].map c.heap.region.word, c.heap.region.word 172,
        c.heap.survey?.elim [] fun s => s.chain.blocks.map fun b => (b.addr, b.isFree)))
        = some ([(200, 40), (152, 12)], [32, 168, 0], 0,
          [(128, true), (152, false), (168, true), (200, false)]) := by
    decide +kernel
  rcases Option.map_eq_some_iff.1 hrun with ⟨c, hrun, hc⟩
  have hreach := reaches_iff.2 ⟨_, hrun⟩
  rcases Prod.mk.inj hc with ⟨hlive, hc⟩
  rcases Prod.mk.inj hc with ⟨hforged, hc⟩
  rcases Prod.mk.inj hc with ⟨hword, hblocks⟩
  rcases hreach.damage_reported with ⟨hcheck, s, haudit, hguarded, hheaded⟩
  rw [Heap.survey?_eq haudit, Option.elim_some] at hblocks
  have hblock : ∀ x free, (x, free) ∈ [(128, true), (152, false), (168, true), (200, false)] →
      ∃ b ∈ s.chain.blocks, b.addr = x ∧ b.isFree = free := by
    intro x free hx
    rw [← hblocks] at hx
    rcases List.mem_map.1 hx with ⟨b, hb, heq⟩
    exact ⟨b, hb, congrArg Prod.fst heq, congrArg Prod.snd heq⟩
  refine ⟨c, hreach, hlive, hforged, hcheck, ?_, ?_⟩
  · rcases hblock 168 true (by decide) with ⟨b, hb, haddr, hfree⟩
    have hg : s.Guarded (b.addr + linkSize) := .next hb hfree
    rw [haddr] at hg
    exact hguarded 172 208 hg (by rw [hword]; decide)
  · rcases hblock 152 false (by decide) with ⟨b, hb, haddr, -⟩
    have hh : s.Headed b.addr := .block hb
    rw [haddr] at hh
    exact hheaded 152 true true hh (.inl rfl)

end BoundaryTag
