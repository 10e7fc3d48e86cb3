import BoundaryTag.Proofs.IntermediateRegion

/-!
# PlainTags — headers that say no more than they must

The third bit of a tag has no meaning. No operation sets it in a header, so that a header says how
large its block is, whether it is in use and whether the block before is free, and nothing else.

* `Tag.Plain` says so about a tag (`Tag.Plain.eq`).
* `KeepsPlain` relates a region to one that was written over it. Writing tags keeps tags plain
  (`keepsPlain_setFree` and the like), and so does linking blocks (`Represents.keepsPlain`).
* `Region.Neat`: all headers of a heap are plain, and that of the prologue is the one it was given.
* `Settled.neat`: a heap stays neat when no header is new, or the new ones are plain.
-/

namespace BoundaryTag

/-! ## Tags -/

namespace Tag

/-- The third bit is not set. -/
def Plain (t : Tag) : Prop := t.word.toNat / 4 % 2 = 0

theorem plain_make {n : Nat} (a p : Bool) (h8 : n % 8 = 0) (hlt : n < 0x100000000) :
    (make n a p).Plain := by
  have ha := a.toNat_le
  have hp := p.toNat_le
  rw [Plain, toNat_word_make a p h8 hlt]
  omega

theorem plain_withPrevFree {t : Tag} (p : Bool) : (t.withPrevFree p).Plain ↔ t.Plain := by
  have hp := p.toNat_le
  rw [Plain, Plain, toNat_word_withPrevFree]
  omega

/-- A plain tag is known from what it says. -/
theorem Plain.eq {t u : Tag} (ht : t.Plain) (hu : u.Plain) (hsize : t.size = u.size)
    (hallocated : t.allocated = u.allocated) (hprev : t.prevFree = u.prevFree) : t = u := by
  have hone : (t.word.toNat % 2 == 1) = (u.word.toNat % 2 == 1) := hallocated
  have htwo : (t.word.toNat / 2 % 2 == 1) = (u.word.toNat / 2 % 2 == 1) := hprev
  rw [Bool.eq_iff_iff, beq_iff_eq, beq_iff_eq] at hone htwo
  have hword : t.word.toNat = u.word.toNat := by
    unfold Plain at ht hu
    unfold size at hsize
    omega
  cases t
  cases u
  exact congrArg Tag.mk (UInt32.toNat.inj hword)

end Tag

/-! ## Places of headers -/

namespace Extent

/-- The addresses of the headers of extents from `a` on, that of the epilogue included. -/
def heads (a : Nat) : List Extent → List Nat
  | [] => [a]
  | e :: es => a :: heads (a + e.size) es

variable {a b c m n x y : Nat} {e : Extent} {p : Bool} {es fs pre post : List Extent}

theorem mem_heads_nil : x ∈ heads a [] ↔ x = a := List.mem_singleton

theorem mem_heads_cons : x ∈ heads a (e :: es) ↔ x = a ∨ x ∈ heads (a + e.size) es := List.mem_cons

theorem mem_heads_self (a : Nat) (es : List Extent) : a ∈ heads a es := by
  cases es <;> exact List.mem_cons_self

theorem mem_heads_append : x ∈ heads a (es ++ fs) ↔ x ∈ heads a es ∨ x ∈ heads (stop a es) fs := by
  induction es generalizing a with
  | nil =>
      rw [List.nil_append, mem_heads_nil, stop_nil, or_iff_right_of_imp]
      rintro rfl
      exact mem_heads_self x fs
  | cons e es ih => rw [List.cons_append, mem_heads_cons, mem_heads_cons, ih, stop_cons, or_assoc]

theorem mem_heads_gap : x ∈ heads a (gap b) ↔ x = a ∨ x = a + b := by
  by_cases hb : b = 0
  · subst hb
    rw [gap_zero, mem_heads_nil, Nat.add_zero, or_self]
  · rw [gap_of_ne hb, mem_heads_cons, mem_heads_nil]

/-- The header of a block, or the epilogue. -/
theorem mem_heads : x ∈ heads a es ↔ (∃ e, (x, e) ∈ located a es) ∨ x = stop a es := by
  induction es generalizing a with
  | nil => simp [heads, located]
  | cons e es ih =>
      rw [mem_heads_cons, ih, stop_cons, ← or_assoc]
      refine or_congr_left ?_
      constructor
      · rintro (rfl | ⟨f, hf⟩)
        · exact ⟨e, mem_located_cons.2 (.inl ⟨rfl, rfl⟩)⟩
        · exact ⟨f, mem_located_cons.2 (.inr hf)⟩
      · rintro ⟨f, hf⟩
        exact (mem_located_cons.1 hf).imp And.left fun hf => ⟨f, hf⟩

theorem le_of_mem_heads (hx : x ∈ heads a es) : a ≤ x := by
  rcases mem_heads.1 hx with ⟨e, he⟩ | rfl
  · exact (located_bounds he).1
  · exact le_stop a es

theorem heads_mod (h : ∀ e ∈ es, e.size % 8 = 0) (hx : x ∈ heads a es) : x % 8 = a % 8 := by
  induction es generalizing a with
  | nil => rw [mem_heads_nil.1 hx]
  | cons e es ih =>
      rcases mem_heads_cons.1 hx with rfl | hx
      · rfl
      · have he := h e List.mem_cons_self
        have := ih (fun f hf => h f (List.mem_cons_of_mem _ hf)) hx
        omega

/-- A block that joins the gaps on either side brings no header that was not there. -/
theorem mem_heads_joined (hm : b + n + c = m)
    (hx : x ∈ heads a (pre ++ ⟨m, false⟩ :: post)) :
    x ∈ heads a (pre ++ gap b ++ ⟨n, p⟩ :: (gap c ++ post)) := by
  rw [mem_heads_append, mem_heads_cons] at hx
  rw [mem_heads_append, mem_heads_append, mem_heads_cons, mem_heads_append, mem_heads_gap,
    mem_heads_gap, stop_append, stop_gap, stop_gap]
  have hend : stop a pre + b + n + c = stop a pre + m := by omega
  rcases hx with hx | rfl | hx
  · exact .inl (.inl hx)
  · exact .inl (.inr (.inl rfl))
  · exact .inr (.inr (.inr (hend ▸ hx)))

end Extent

open Extent

namespace Region

variable {r s t : Region} {lo x n : Nat} {p : Bool} {es es' : List Extent}
  {lists lists' : Nat → List Nat}

/-! ## Writing -/

/-- Where a block can be, a tag that was plain is plain again, and the header of the prologue is the
same. -/
structure KeepsPlain (r s : Region) (lo : Nat) : Prop where
  prologue : s.tagAt (lo + 8) = r.tagAt (lo + 8)
  plain : ∀ x, x % 8 = 0 → lo + frameSize ≤ x → (r.tagAt x).Plain → (s.tagAt x).Plain

namespace KeepsPlain

theorem trans (h : r.KeepsPlain s lo) (h' : s.KeepsPlain t lo) : r.KeepsPlain t lo :=
  ⟨h'.prologue.trans h.prologue, fun x h8 hx hp => h'.plain x h8 hx (h.plain x h8 hx hp)⟩

/-- It is enough to look at tags that change. -/
theorem of_byte (hbelow : ∀ i, lo + 4 ≤ i → i < lo + 8 → s.byte i = r.byte i)
    (hplain : ∀ x, x % 8 = 0 → lo + frameSize ≤ x → (s.tagAt x).Plain
      ∨ ∀ i, x - 4 ≤ i → i < x → s.byte i = r.byte i) : r.KeepsPlain s lo := by
  refine ⟨tagAt_congr (by omega) fun i hi hi' => hbelow i (by omega) hi', fun x h8 hx hp => ?_⟩
  simp only [frameSize] at hx
  rcases hplain x h8 hx with hp' | hbyte
  · exact hp'
  · rw [tagAt_congr (by omega) hbyte]
    exact hp

end KeepsPlain

/-- Tags are written at multiples of eight, so a footer is never in the place of a header. -/
theorem keepsPlain_setFree (hx : lo + frameSize ≤ x) (hx8 : x % 8 = 0) (hn : 16 ≤ n)
    (h8 : n % 8 = 0) (hlt : n < 0x100000000) (h : x + n ≤ r.size + 4) :
    r.KeepsPlain (r.setFree x n p) lo := by
  simp only [frameSize] at hx
  refine .of_byte (fun i _ hi => byte_setFree (by omega) (by omega)) fun y hy8 hy => ?_
  by_cases hyx : y = x
  · subst hyx
    rw [tagAt_setFree (by omega) (by omega) h]
    exact .inl (Tag.plain_make _ _ h8 hlt)
  · exact .inr fun i hi hi' => byte_setFree (by omega) (by omega)

theorem keepsPlain_setAllocated (hx : lo + frameSize ≤ x) (hx8 : x % 8 = 0) (h8 : n % 8 = 0)
    (hlt : n < 0x100000000) (h : x ≤ r.size) : r.KeepsPlain (r.setAllocated x n p) lo := by
  simp only [frameSize] at hx
  refine .of_byte (fun i _ hi => byte_setAllocated (by omega)) fun y hy8 hy => ?_
  by_cases hyx : y = x
  · subst hyx
    rw [tagAt_setAllocated (by omega) h]
    exact .inl (Tag.plain_make _ _ h8 hlt)
  · exact .inr fun i hi hi' => byte_setAllocated (by omega)

theorem keepsPlain_setPrevFree (hx : lo + frameSize ≤ x) (hx8 : x % 8 = 0) (h : x ≤ r.size) :
    r.KeepsPlain (r.setPrevFree x p) lo := by
  have h8 := (r.tagAt x).size_mod
  simp only [frameSize] at hx
  refine ⟨tagAt_congr (by omega) fun i _ hi => byte_setPrevFree_below (by omega),
    fun y hy8 hy hplain => ?_⟩
  by_cases hyx : y = x
  · subst hyx
    rw [tagAt_setPrevFree (by omega) h, Tag.plain_withPrevFree]
    exact hplain
  · simp only [frameSize] at hy
    have hsame : (r.setPrevFree x p).tagAt y = r.tagAt y :=
      tagAt_congr (by omega) fun i hi hi' => byte_setPrevFree (by omega) fun _ _ => by omega
    rw [hsame]
    exact hplain

end Region

/-- A word that holds a link holds a multiple of eight, and so do all words that blocks link with.
-/
theorem Links.plain_of_linkAt {l : Links} {r : Region} {a : Nat} (hbase : l.base % 8 = 0)
    (hlink : ∀ b ∈ l.linkAt r a, b % 8 = 0) : (Tag.mk (r.word a)).Plain := by
  show (r.word a).toNat / 4 % 2 = 0
  unfold linkAt at hlink
  split at hlink
  case isTrue h0 =>
    rw [h0]
    rfl
  case isFalse =>
    have := hlink _ rfl
    omega

/-- Linking blocks keeps tags plain: a link onwards that is in the place of a tag is plain, too. -/
theorem FreeLists.Represents.keepsPlain {r s : Region} {lo : Nat} {lists : Nat → List Nat}
    (h : (FreeLists.at lo).Represents s lists) (hlo : lo % 8 = 0)
    (h8 : ∀ k, ∀ y ∈ lists k, y % 8 = 0)
    (hbyte : ∀ i, ¬(FreeLists.at lo).Touches lists i → s.byte i = r.byte i) :
    r.KeepsPlain s lo := by
  have hsentinel : ∀ k < SizeClass.count, lo + 8 ≤ (FreeLists.at lo).sentinelAt k
      ∧ (FreeLists.at lo).sentinelAt k + 16 ≤ lo + 128 := fun k hk => sentinel_lt lo hk
  refine .of_byte (fun i hi hi' => hbyte i ?_) fun x hx8 hx => ?_
  · rintro ⟨k, hk, y, hy, hyi⟩
    have hlt : lo < y := (h.room k hk y hy).1
    rcases List.mem_cons.1 hy with rfl | hy
    · have := hsentinel k hk
      omega
    · have := h8 k y hy
      omega
  · simp only [frameSize] at hx
    -- a header may lie where a listed block has its link onwards, which is a multiple of eight
    by_cases hnode : ∃ k < SizeClass.count, x - 8 ∈ lists k
    · rcases hnode with ⟨k, hk, hmem⟩
      rcases List.append_of_mem hmem with ⟨l₁, l₂, hsplit⟩
      have hnext := (Strung.append (hsplit ▸ h.strung k hk)).2.next
      have hat : x - 8 + 4 = x - 4 := by omega
      rw [hat] at hnext
      refine .inl (Links.plain_of_linkAt (l := (FreeLists.at lo).links) hlo fun b hb => h8 k b ?_)
      rw [hnext] at hb
      rw [hsplit]
      exact List.mem_append_right _ (List.mem_cons_of_mem _ (List.mem_of_mem_head? hb))
    · refine .inr fun i hi hi' => hbyte i ?_
      rintro ⟨k, hk, y, hy, hyi⟩
      rcases List.mem_cons.1 hy with rfl | hy
      · have := hsentinel k hk
        omega
      · have hy8 := h8 k y hy
        have hyx : y = x - 8 := by omega
        exact hnode ⟨k, hk, hyx ▸ hy⟩

namespace Region

variable {r s t : Region} {lo x n : Nat} {p : Bool} {es es' : List Extent}
  {lists lists' : Nat → List Nat}

/-! ## Heaps -/

/-- No header of a heap has its third bit set, and that of the prologue is the one it was given. -/
def Neat (r : Region) (lo : Nat) : Prop :=
  r.tagAt (lo + 8) = Tag.make prologueSize true false
    ∧ ∀ es, r.Chained (lo + frameSize) false es →
        ∀ x ∈ heads (lo + frameSize) es, (r.tagAt x).Plain

theorem Chained.neat_iff (h : r.Chained (lo + frameSize) false es) :
    r.Neat lo ↔ r.tagAt (lo + 8) = Tag.make prologueSize true false
      ∧ ∀ x ∈ heads (lo + frameSize) es, (r.tagAt x).Plain :=
  and_congr_right fun _ => ⟨fun hall => hall es h, fun hall _ h' => h.unique h' ▸ hall⟩

/-- Headers are at multiples of eight, after the frame. -/
theorem Drawn.heads (h : r.Drawn lo es lists) (hx : x ∈ heads (lo + frameSize) es) :
    x % 8 = 0 ∧ lo + frameSize ≤ x ∧ x ≤ r.size := by
  have hmod := heads_mod h.chained.tagged.size_mod hx
  have hlo := h.aligned
  refine ⟨by simp only [frameSize] at hmod; omega, le_of_mem_heads hx, ?_⟩
  rcases mem_heads.1 hx with ⟨e, he⟩ | rfl
  · have := h.located he
    omega
  · exact Nat.le_of_eq h.stop_eq

/-- Linking blocks keeps tags plain. -/
theorem Drawn.keepsPlain (h : s.Drawn lo es lists) (hl : FreeOnly (lo + frameSize) es lists)
    (hbyte : ∀ i, ¬(FreeLists.at lo).Touches lists i → s.byte i = r.byte i) :
    r.KeepsPlain s lo := by
  refine h.lists.keepsPlain h.aligned (fun k y hy => ?_) hbyte
  rcases hl k y hy with ⟨n, hn⟩
  exact (h.located hn).2.2.1

/-- Past the end of a region, all bytes are zero. -/
theorem plain_of_size_le (h : r.size + 4 ≤ x) : (r.tagAt x).Plain := by
  show (r.word (x - 4)).toNat / 4 % 2 = 0
  rw [toNat_word, byte_of_size_le (by omega), byte_of_size_le (by omega),
    byte_of_size_le (by omega), byte_of_size_le (by omega)]
  rfl

/-- A heap stays neat when no header is new, or the new ones are plain. -/
theorem Settled.neat (hr : r.Settled lo es lists) (hs : s.Settled lo es' lists')
    (hk : r.KeepsPlain s lo)
    (hnew : ∀ x ∈ Extent.heads (lo + frameSize) es',
      x ∈ Extent.heads (lo + frameSize) es ∨ (s.tagAt x).Plain)
    (h : r.Neat lo) : s.Neat lo := by
  rcases hr.drawn.chained.neat_iff.1 h with ⟨hprologue, hplain⟩
  refine hs.drawn.chained.neat_iff.2 ⟨hk.prologue.trans hprologue, fun x hx => ?_⟩
  rcases hs.drawn.heads hx with ⟨h8, hlo, -⟩
  exact (hnew x hx).elim (fun hold => hk.plain x h8 hlo (hplain x hold)) id

/-- Payloads can hold anything. -/
theorem Settled.neat_congr (hr : r.Settled lo es lists) (hsize : s.size = r.size)
    (hbyte : ∀ i, ¬IsPayload (lo + frameSize) es i → s.byte i = r.byte i) (h : r.Neat lo) :
    s.Neat lo := by
  have hs := hr.congr hsize hbyte
  rcases hr.drawn.chained.neat_iff.1 h with ⟨hprologue, hplain⟩
  refine hs.drawn.chained.neat_iff.2 ⟨?_, fun x hx => ?_⟩
  · rw [← hprologue]
    refine tagAt_congr (by omega) fun i _ hi => hbyte i fun hp => ?_
    have := hp.bounds.1
    simp only [frameSize] at this
    omega
  · have hsame : s.tagAt x = r.tagAt x := by
      have hb := hr.drawn.heads hx
      simp only [frameSize] at hb
      refine tagAt_congr (by omega) fun i hi hi' => hbyte i fun hp => ?_
      rcases mem_heads.1 hx with ⟨e, he⟩ | rfl
      · exact not_isPayload_of_isTag hr.drawn.large ⟨x, e, he, .inl ⟨by omega, hi'⟩⟩ hp
      · have := hp.bounds.2
        omega
    rw [hsame]
    exact hplain x hx

end Region

end BoundaryTag
