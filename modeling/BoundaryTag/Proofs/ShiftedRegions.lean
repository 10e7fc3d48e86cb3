import BoundaryTag.Heap.Stats
import BoundaryTag.FreeLists.Placement
import BoundaryTag.Heap.Frame
import BoundaryTag.Proofs.HeapGrowth

/-!
# ShiftedRegions — the same bytes further up

Two regions of which the second has the bytes of the first, a distance further up. What lies below
them in the second plays no part. Every operation does the same to both when it is given addresses
that differ by the distance: tags hold sizes, links count from a base that is moved as well, and
the distance takes no address out of range.

* `Fault.Mirrored` relates two runs by their results, if the first of them comes through.
* `Region.Shifted` relates the regions, byte by byte.
* There is one lemma for each operation. They end with `Shifted.place` and `Shifted.release`, which
  change the blocks of a heap, `Shifted.firstFit`, which searches its lists, and `Shifted.tally`.
-/

namespace BoundaryTag

/-! ## Two runs -/

namespace Fault

/-- If the first run comes through, so does the second, with a related result. -/
def Mirrored {α β : Type} (rel : α → β → Prop) (x : Except Fault α) (y : Except Fault β) : Prop :=
  ∀ a, x = .ok a → ∃ b, y = .ok b ∧ rel a b

namespace Mirrored

variable {α β γ δ : Type} {rel : α → β → Prop} {rel' : γ → δ → Prop}
  {x : Except Fault α} {y : Except Fault β} {x' : Except Fault γ} {y' : Except Fault δ}

theorem ok {a : α} {b : β} (h : rel a b) : Mirrored rel (.ok a) (.ok b) := by
  intro a' ha
  cases ha
  exact ⟨b, rfl, h⟩

theorem pure {a : α} {b : β} (h : rel a b) : Mirrored rel (pure a) (pure b) := ok h

theorem error {f : Fault} : Mirrored rel (.error f) y := nofun

theorem mono {rel₂ : α → β → Prop} (h : Mirrored rel x y) (hrel : ∀ a b, rel a b → rel₂ a b) :
    Mirrored rel₂ x y := by
  intro a ha
  rcases h a ha with ⟨b, hb, hab⟩
  exact ⟨b, hb, hrel a b hab⟩

theorem refl : Mirrored Eq x x := fun a ha => ⟨a, ha, rfl⟩

theorem require {c c' : Prop} [Decidable c] [Decidable c'] {f f' : Fault} (h : c → c') :
    Mirrored (fun _ _ => c) (Fault.require c f) (Fault.require c' f') := by
  by_cases hc : c
  · rw [require_eq f hc, require_eq f' (h hc)]
    exact ok hc
  · rw [Fault.require, if_neg hc]
    exact error

/-- Two runs of two steps are related if the first steps are, and the second steps are wherever the
first ones lead. -/
theorem bind {f : α → Except Fault γ} {g : β → Except Fault δ} (h : Mirrored rel x y)
    (hrest : ∀ a b, x = .ok a → rel a b → Mirrored rel' (f a) (g b)) :
    Mirrored rel' (x >>= f) (y >>= g) := by
  intro c hc
  rcases bind_eq_ok.1 hc with ⟨a, ha, hf⟩
  rcases h a ha with ⟨b, hb, hab⟩
  rcases hrest a b ha hab c hf with ⟨d, hd, hcd⟩
  exact ⟨d, by rw [hb, ok_bind, hd], hcd⟩

theorem map {f : α → γ} {g : β → δ} (h : Mirrored rel x y)
    (hrel : ∀ a b, rel a b → rel' (f a) (g b)) : Mirrored rel' (f <$> x) (g <$> y) := by
  intro c hc
  cases x with
  | error => cases hc
  | ok a =>
      cases hc
      rcases h a rfl with ⟨b, hb, hab⟩
      exact ⟨g b, by rw [hb, map_ok], hrel a b hab⟩

theorem ite {c c' : Prop} [Decidable c] [Decidable c'] {x₁ x₂ : Except Fault α}
    {y₁ y₂ : Except Fault β} (h : c ↔ c') (hpos : c → Mirrored rel x₁ y₁)
    (hneg : ¬c → Mirrored rel x₂ y₂) :
    Mirrored rel (if c then x₁ else x₂) (if c' then y₁ else y₂) := by
  by_cases hc : c
  · rw [if_pos hc, if_pos (h.1 hc)]
    exact hpos hc
  · rw [if_neg hc, if_neg (fun hc' => hc (h.2 hc'))]
    exact hneg hc

end Mirrored

end Fault

open Fault

/-! ## Addresses -/

/-- An address that is `d` further up than another. -/
def Address.Ahead (d a b : Nat) : Prop := b = a + d

def Address.shift (d : Nat) (p : Option Nat) : Option Nat := p.map (· + d)

namespace Address

variable {d a n : Nat}

theorem sub_ahead : Mirrored (Ahead d) (sub a n) (sub (a + d) n) := by
  intro b hb
  unfold sub at hb
  split at hb
  case isTrue hn =>
    cases hb
    refine ⟨_, sub_eq (by omega), ?_⟩
    show a + d - n = a - n + d
    omega
  case isFalse => cases hb

theorem add_ahead (h : a + d < 0x8000000000000000) (hn : n < 0x100000000) :
    Mirrored (Ahead d) (add a n) (add (a + d) n) := by
  intro b hb
  rw [add_eq (by omega)] at hb
  cases hb
  exact ⟨_, add_eq (by omega), Nat.add_right_comm a d n⟩

end Address

open Address

/-! ## Regions -/

/-- The bytes of `r` are those of `s` from `d` on. -/
structure Region.Shifted (d : Nat) (r s : Region) : Prop where
  size : s.size = r.size + d
  byte : ∀ a, s.byte (a + d) = r.byte a

namespace Region.Shifted

variable {d : Nat} {r s : Region} {a b n bp size : Nat} {w : UInt32} {v : UInt8}

theorem lt (h : Shifted d r s) (ha : a ≤ r.size) : a + d < 0x8000000000000000 := by
  have := s.size_lt
  have := h.size
  omega

theorem setByte (h : Shifted d r s) (a : Nat) (v : UInt8) :
    Shifted d (r.setByte a v) (s.setByte (a + d) v) := by
  refine ⟨by simp [h.size], fun i => ?_⟩
  have hsize : a + d < s.size ↔ a < r.size := by
    rw [h.size]
    omega
  simp only [byte_setByte, h.byte, hsize, Nat.add_right_cancel_iff]

theorem setWord (h : Shifted d r s) (a : Nat) (w : UInt32) :
    Shifted d (r.setWord a w) (s.setWord (a + d) w) := by
  unfold Region.setWord
  rw [Nat.add_right_comm a d 1, Nat.add_right_comm a d 2, Nat.add_right_comm a d 3]
  exact (((h.setByte a _).setByte (a + 1) _).setByte (a + 2) _).setByte (a + 3) _

theorem word (h : Shifted d r s) (a : Nat) : s.word (a + d) = r.word a := by
  unfold Region.word
  rw [Nat.add_right_comm a d 1, Nat.add_right_comm a d 2, Nat.add_right_comm a d 3, h.byte, h.byte,
    h.byte, h.byte]

theorem fill (h : Shifted d r s) (a : Nat) (v : UInt8) (n : Nat) :
    Shifted d (r.fill a v n) (s.fill (a + d) v n) := by
  induction n generalizing r s a with
  | zero => exact h
  | succ n ih =>
      rw [Region.fill, Region.fill, Nat.add_right_comm a d 1]
      exact ih (h.setByte a v) (a + 1)

theorem extend (h : Shifted d r s) (hr : r.size + n < bound) (hs : s.size + n < bound) :
    Shifted d (r.extend n hr) (s.extend n hs) := by
  refine ⟨?_, fun i => ?_⟩
  · rw [size_extend, size_extend, h.size]
    omega
  · rw [byte_extend, byte_extend, h.byte]

theorem read (h : Shifted d r s) (a : Nat) : Mirrored Eq (r.read a) (s.read (a + d)) := by
  intro w hw
  unfold Region.read at hw
  split at hw
  case isTrue ha =>
    cases hw
    exact ⟨_, read_eq (by rw [h.size]; omega), (h.word a).symm⟩
  case isFalse => cases hw

theorem write (h : Shifted d r s) (a : Nat) (w : UInt32) :
    Mirrored (Shifted d) (r.write a w) (s.write (a + d) w) := by
  intro r' hr
  unfold Region.write at hr
  split at hr
  case isTrue ha =>
    cases hr
    exact ⟨_, write_eq w (by rw [h.size]; omega), h.setWord a w⟩
  case isFalse => cases hr

theorem slice (h : Shifted d r s) (ha : a + n ≤ r.size) : s.slice (a + d) n = r.slice a n := by
  refine slice_eq_slice ha (by rw [h.size]; omega) fun i _ => ?_
  rw [Nat.add_right_comm, h.byte]

theorem store (h : Shifted d r s) (a : Nat) (bs : ByteArray) :
    Mirrored (Shifted d) (r.store a bs) (s.store (a + d) bs) := by
  intro r' hr
  have hfits : a + bs.size ≤ r.size := by
    unfold Region.store at hr
    split at hr
    case isTrue hfits => exact hfits
    case isFalse => cases hr
  have hfits' : a + d + bs.size ≤ s.size := by
    rw [h.size]
    omega
  refine ⟨_, dif_pos hfits', ?_, fun i => ?_⟩
  · rw [size_store (dif_pos hfits'), size_store hr, h.size]
  · have hin : a + d ≤ i + d ∧ i + d < a + d + bs.size ↔ a ≤ i ∧ i < a + bs.size := by omega
    simp only [byte_store (dif_pos hfits'), byte_store hr, hin, h.byte, Nat.add_sub_add_right]

theorem copy (h : Shifted d r s) (src dst n : Nat) :
    Mirrored (Shifted d) (r.copy src dst n) (s.copy (src + d) (dst + d) n) := by
  by_cases hn : src + n ≤ r.size
  · rw [Region.copy, Region.copy, if_pos hn, if_pos (by rw [h.size]; omega), h.slice hn]
    exact h.store dst _
  · rw [Region.copy, if_neg hn]
    exact .error

/-! ## Tags and neighbours -/

theorem tag (h : Shifted d r s) (a : Nat) : Mirrored Eq (r.tag a) (s.tag (a + d)) := by
  refine (h.read a).bind ?_
  rintro w _ - rfl
  exact .pure rfl

theorem header (h : Shifted d r s) (bp : Nat) :
    Mirrored Eq (r.header bp) (s.header (bp + d)) := by
  refine sub_ahead.bind ?_
  rintro a _ - rfl
  exact h.tag a

theorem next (h : Shifted d r s) (bp : Nat) :
    Mirrored (Ahead d) (r.next bp) (s.next (bp + d)) := by
  refine (h.header bp).bind ?_
  rintro t _ ht rfl
  have := t.size_le
  exact add_ahead (h.lt (header_eq_ok ht).2.1) (by omega)

theorem footerAddr (h : Shifted d r s) (bp : Nat) :
    Mirrored (Ahead d) (r.footerAddr bp) (s.footerAddr (bp + d)) := by
  refine (h.header bp).bind ?_
  rintro t _ ht rfl
  rcases header_eq_ok ht with ⟨h4, hbp, -⟩
  have := t.size_le
  refine Mirrored.bind (sub_ahead (n := 4)) ?_
  rintro a _ ha rfl
  rw [headerAddr_eq h4] at ha
  cases ha
  refine Mirrored.bind (add_ahead (h.lt (by omega)) (by omega)) ?_
  rintro b _ - rfl
  exact sub_ahead

theorem previous (h : Shifted d r s) (bp : Nat) :
    Mirrored (Ahead d) (r.previous bp) (s.previous (bp + d)) := by
  refine (h.header bp).bind ?_
  rintro t _ - rfl
  refine (Mirrored.require id).bind fun _ _ _ _ => ?_
  refine Mirrored.bind (sub_ahead (n := 8)) ?_
  rintro a _ - rfl
  refine (h.tag a).bind ?_
  rintro footer _ - rfl
  exact sub_ahead

theorem beforeOf (h : Shifted d r s) (bp : Nat) (t : Tag) :
    Mirrored (fun p q => q = Address.shift d p) (r.beforeOf bp t) (s.beforeOf (bp + d) t) := by
  refine .ite Iff.rfl (fun _ => ?_) fun _ => .pure rfl
  refine (h.previous bp).map ?_
  rintro a _ rfl
  rfl

/-! ## Writing tags -/

theorem writeFree (h : Shifted d r s) (bp size : Nat) (prevFree : Bool) :
    Mirrored (Shifted d) (r.writeFree bp size prevFree) (s.writeFree (bp + d) size prevFree) := by
  refine Mirrored.refl.bind ?_
  rintro t _ ht rfl
  have hsize := Tag.lt_of_pack_eq_ok ht
  refine Mirrored.bind (sub_ahead (n := 4)) ?_
  rintro a _ - rfl
  refine (h.write a t.word).bind fun r₁ s₁ hr h₁ => ?_
  have := (write_eq_ok hr).1
  refine Mirrored.bind (add_ahead (h.lt (by omega)) hsize) ?_
  rintro b _ - rfl
  refine Mirrored.bind (sub_ahead (n := 4)) ?_
  rintro footer _ - rfl
  exact h₁.write footer t.word

theorem writeAllocated (h : Shifted d r s) (bp size : Nat) (prevFree : Bool) :
    Mirrored (Shifted d) (r.writeAllocated bp size prevFree)
      (s.writeAllocated (bp + d) size prevFree) := by
  refine Mirrored.refl.bind ?_
  rintro t _ - rfl
  refine Mirrored.bind (sub_ahead (n := 4)) ?_
  rintro a _ - rfl
  exact h.write a t.word

theorem notePrevFree (h : Shifted d r s) (bp : Nat) (prevFree : Bool) :
    Mirrored (Shifted d) (r.notePrevFree bp prevFree) (s.notePrevFree (bp + d) prevFree) := by
  refine (h.next bp).bind ?_
  rintro following _ - rfl
  refine (h.header following).bind ?_
  rintro t _ - rfl
  refine Mirrored.bind (sub_ahead (n := 4)) ?_
  rintro a _ - rfl
  refine (h.write a _).bind fun r₁ s₁ _ h₁ => ?_
  refine .ite Iff.rfl (fun _ => .pure h₁) fun _ => ?_
  refine (h₁.footerAddr following).bind ?_
  rintro footer _ - rfl
  exact h₁.write footer _

theorem setFrame (h : Shifted d r s) (lo : Nat) :
    Shifted d (r.setFrame lo) (s.setFrame (lo + d)) := by
  have hheader : lo + 8 + d - 4 = lo + 8 - 4 + d := by omega
  unfold Region.setFrame Region.setAllocated
  rw [Nat.add_right_comm lo d 8, Nat.add_right_comm lo d 120, Nat.add_right_comm lo d 124, hheader]
  exact ((((h.setWord lo _).setWord (lo + 8 - 4) _).fill (lo + 8) 0 112).setWord
    (lo + 120) _).setWord (lo + 124) _

theorem raiseEpilogue (h : Shifted d r s) (bp : Nat) {size : Nat} (hsize : size < 0x100000000) :
    Mirrored (Shifted d) (r.raiseEpilogue bp size) (s.raiseEpilogue (bp + d) size) := by
  refine (h.header bp).bind ?_
  rintro t _ ht rfl
  refine (h.writeFree bp size t.prevFree).bind fun r₁ s₁ _ h₁ => ?_
  refine Mirrored.bind (add_ahead (h.lt (header_eq_ok ht).2.1) hsize) ?_
  rintro top _ - rfl
  refine Mirrored.bind (sub_ahead (n := 4)) ?_
  rintro a _ - rfl
  refine Mirrored.refl.bind ?_
  rintro u _ - rfl
  exact h₁.write a u.word

end Region.Shifted

/-! ## Links -/

def Links.shift (d : Nat) (l : Links) : Links := ⟨l.base + d⟩

def FreeLists.shift (d : Nat) (l : FreeLists) : FreeLists := ⟨l.root + d, l.base + d⟩

theorem Links.encode_shift (d : Nat) (l : Links) (p : Option Nat) :
    Mirrored Eq (l.encode p) ((l.shift d).encode (Address.shift d p)) := by
  cases p with
  | none => exact .refl
  | some a =>
      have hsub : a + d - (l.base + d) = a - l.base := Nat.add_sub_add_right a d l.base
      have hlt : l.base + d < a + d ↔ l.base < a := Nat.add_lt_add_iff_right
      refine Mirrored.bind (Mirrored.require ?_) fun _ _ _ _ => ?_
      · rintro ⟨h, hs⟩
        exact ⟨hlt.2 h, hsub ▸ hs⟩
      · exact .pure (by rw [← hsub]; rfl)

theorem Links.decode_shift {d : Nat} {l : Links} (hl : l.base + d < 0x8000000000000000)
    (w : UInt32) :
    Mirrored (fun p q => q = Address.shift d p) (l.decode w) ((l.shift d).decode w) := by
  refine .ite Iff.rfl (fun _ => .pure rfl) fun _ => ?_
  refine Mirrored.map (add_ahead hl w.toNat_lt) ?_
  rintro a _ rfl
  rfl

namespace Region.Shifted

variable {d : Nat} {r s : Region} {l : Links} {bp : Nat} {p : Option Nat}

theorem previousLink (h : Shifted d r s) (hl : l.base + d < 0x8000000000000000) (bp : Nat) :
    Mirrored (fun p q => q = Address.shift d p) (l.previous r bp)
      ((l.shift d).previous s (bp + d)) := by
  refine (h.read bp).bind ?_
  rintro w _ - rfl
  exact Links.decode_shift hl w

/-- The word after the one at an address, if what happens there shows that it is inside. -/
theorem add_bind {α β : Type} {rel : α → β → Prop} {f : Nat → Except Fault α}
    {g : Nat → Except Fault β} (h : Shifted d r s)
    (hin : ∀ a, f (bp + 4) = .ok a → bp + 4 ≤ r.size)
    (hrest : Mirrored rel (f (bp + 4)) (g (bp + 4 + d))) :
    Mirrored rel (Address.add bp 4 >>= f) (Address.add (bp + d) 4 >>= g) := by
  intro a ha
  rcases bind_eq_ok.1 ha with ⟨b, hb, hf⟩
  obtain rfl := Address.add_eq_ok hb
  have := h.lt (hin a hf)
  rw [Address.add_eq (by omega), ok_bind, Nat.add_right_comm]
  exact hrest a hf

theorem nextLink (h : Shifted d r s) (hl : l.base + d < 0x8000000000000000) (bp : Nat) :
    Mirrored (fun p q => q = Address.shift d p) (l.next r bp) ((l.shift d).next s (bp + d)) := by
  refine h.add_bind (fun p hp => ?_) ?_
  · rcases bind_eq_ok.1 hp with ⟨w, hw, -⟩
    have := read_eq_ok hw
    omega
  · refine (h.read (bp + 4)).bind ?_
    rintro w _ - rfl
    exact Links.decode_shift hl w

theorem setPrevious (h : Shifted d r s) (bp : Nat) (p : Option Nat) :
    Mirrored (Shifted d) (l.setPrevious r bp p)
      ((l.shift d).setPrevious s (bp + d) (Address.shift d p)) := by
  refine (l.encode_shift d p).bind ?_
  rintro w _ - rfl
  exact h.write bp w

theorem setNext (h : Shifted d r s) (bp : Nat) (p : Option Nat) :
    Mirrored (Shifted d) (l.setNext r bp p)
      ((l.shift d).setNext s (bp + d) (Address.shift d p)) := by
  refine (l.encode_shift d p).bind ?_
  rintro w _ - rfl
  refine h.add_bind (fun r₁ hr => ?_) (h.write (bp + 4) w)
  have := (write_eq_ok hr).1
  omega

end Region.Shifted

/-! ## Free lists -/

theorem FreeLists.sentinel_shift {d : Nat} {l : FreeLists} (hl : l.root + d < 0x8000000000000000)
    (index : Nat) : Mirrored (Ahead d) (l.sentinel index) ((l.shift d).sentinel index) := by
  refine (Mirrored.require id).bind fun _ _ _ hindex => add_ahead hl ?_
  simp only [SizeClass.count, sentinelSize] at hindex ⊢
  omega

namespace Region.Shifted

variable {d : Nat} {r s : Region} {l : FreeLists} {bp size need : Nat}

variable (hl : l.root + d < 0x8000000000000000 ∧ l.base + d < 0x8000000000000000)
include hl

theorem first (h : Shifted d r s) (index : Nat) :
    Mirrored (fun p q => q = Address.shift d p) (l.first r index) ((l.shift d).first s index) := by
  refine (FreeLists.sentinel_shift hl.1 index).bind ?_
  rintro head _ - rfl
  exact h.nextLink hl.2 head

theorem insert (h : Shifted d r s) (bp size : Nat) :
    Mirrored (Shifted d) (l.insert r bp size) ((l.shift d).insert s (bp + d) size) := by
  refine (FreeLists.sentinel_shift hl.1 _).bind ?_
  rintro head _ - rfl
  refine (h.nextLink hl.2 head).bind ?_
  rintro old _ - rfl
  refine (h.setNext bp old).bind fun r₁ s₁ _ h₁ => ?_
  refine (h₁.setPrevious bp (some head)).bind fun r₂ s₂ _ h₂ => ?_
  cases old with
  | none => exact h₂.setNext head (some bp)
  | some o =>
      refine (h₂.setPrevious o (some bp)).bind fun r₃ s₃ _ h₃ => ?_
      exact h₃.setNext head (some bp)

theorem remove (h : Shifted d r s) (bp : Nat) :
    Mirrored (Shifted d) (l.remove r bp) ((l.shift d).remove s (bp + d)) := by
  refine (h.previousLink hl.2 bp).bind ?_
  rintro before _ - rfl
  refine (h.nextLink hl.2 bp).bind ?_
  rintro after _ - rfl
  cases before with
  | none => exact .error
  | some b =>
      cases after with
      | none => exact h.setNext b none
      | some a =>
          refine (h.setPrevious a (some b)).bind fun r₁ s₁ _ h₁ => ?_
          exact h₁.setNext b (some a)

/-- A search that ends within some fuel ends with more of it. -/
theorem fitFrom (h : Shifted d r s) (need : Nat) {fuel fuel' : Nat} (hfuel : fuel ≤ fuel')
    (cursor : Option Nat) :
    Mirrored (fun p q => q = Address.shift d p) (l.fitFrom r need fuel cursor)
      ((l.shift d).fitFrom s need fuel' (Address.shift d cursor)) := by
  induction fuel generalizing fuel' cursor with
  | zero =>
      cases cursor with
      | none =>
          rw [FreeLists.fitFrom]
          cases fuel' <;> exact .pure rfl
      | some bp => exact .error
  | succ fuel ih =>
      obtain ⟨fuel', rfl⟩ : ∃ k, fuel' = k + 1 := ⟨fuel' - 1, by omega⟩
      cases cursor with
      | none => exact .pure rfl
      | some bp =>
          refine (h.header bp).bind ?_
          rintro t _ - rfl
          refine .ite Iff.rfl (fun _ => .pure rfl) fun _ => ?_
          refine (h.nextLink hl.2 bp).bind ?_
          rintro after _ - rfl
          exact ih (by omega) after

theorem fitInClass (h : Shifted d r s) (need index : Nat) :
    Mirrored (fun p q => q = Address.shift d p) (l.fitInClass r need index)
      ((l.shift d).fitInClass s need index) := by
  refine (h.first hl index).bind ?_
  rintro p _ - rfl
  refine h.fitFrom hl need ?_ p
  rw [h.size]
  omega

theorem fitInClasses (h : Shifted d r s) (need : Nat) (classes : List Nat) :
    Mirrored (fun p q => q = Address.shift d p) (l.fitInClasses r need classes)
      ((l.shift d).fitInClasses s need classes) := by
  induction classes with
  | nil => exact .pure rfl
  | cons index rest ih =>
      refine (h.fitInClass hl need index).bind ?_
      rintro p _ - rfl
      cases p with
      | none => exact ih
      | some bp => exact .pure rfl

theorem firstFit (h : Shifted d r s) (need : Nat) :
    Mirrored (fun p q => q = Address.shift d p) (l.firstFit r need)
      ((l.shift d).firstFit s need) :=
  h.fitInClasses hl need _

/-! ## Blocks -/

theorem place (h : Shifted d r s) (bp need : Nat) :
    Mirrored (fun x y => Shifted d x.1 y.1) (l.place r bp need)
      ((l.shift d).place s (bp + d) need) := by
  refine (h.header bp).bind ?_
  rintro t _ ht rfl
  refine (Mirrored.require id).bind fun _ _ _ _ => ?_
  refine (Mirrored.require id).bind fun _ _ _ hneed => ?_
  refine (h.remove hl bp).bind fun r₁ s₁ _ h₁ => ?_
  have := t.size_le
  refine .ite Iff.rfl (fun _ => ?_) fun _ => ?_
  · refine Mirrored.bind (add_ahead (h.lt (header_eq_ok ht).2.1) (by omega)) ?_
    rintro rest _ - rfl
    refine (h₁.writeAllocated bp need t.prevFree).bind fun r₂ s₂ _ h₂ => ?_
    refine (h₂.writeFree rest _ false).bind fun r₃ s₃ _ h₃ => ?_
    refine (h₃.notePrevFree rest true).bind fun r₄ s₄ _ h₄ => ?_
    exact (h₄.insert hl rest _).bind fun r₅ s₅ _ h₅ => .pure h₅
  · refine (h₁.writeAllocated bp t.size t.prevFree).bind fun r₂ s₂ _ h₂ => ?_
    exact (h₂.notePrevFree bp false).bind fun r₃ s₃ _ h₃ => .pure h₃

theorem absorb (h : Shifted d r s) (size bp : Nat) :
    Mirrored (fun x y => Shifted d x.1 y.1 ∧ y.2 = x.2) (l.absorb r size bp)
      ((l.shift d).absorb s size (bp + d)) := by
  refine (h.header bp).bind ?_
  rintro t _ - rfl
  refine (Mirrored.require id).bind fun _ _ _ _ => ?_
  refine Mirrored.refl.bind ?_
  rintro total _ - rfl
  exact (h.remove hl bp).bind fun r₁ s₁ _ h₁ => .pure ⟨h₁, rfl⟩

theorem absorbSide (h : Shifted d r s) (size : Nat) (side : Option Nat) :
    Mirrored (fun x y => Shifted d x.1 y.1 ∧ y.2 = x.2) (l.absorbSide (r, size) side)
      ((l.shift d).absorbSide (s, size) (Address.shift d side)) := by
  cases side with
  | none => exact .pure ⟨h, rfl⟩
  | some a => exact h.absorb hl size a

theorem finish (h : Shifted d r s) (block size : Nat) (events events' : List Event) :
    Mirrored (fun x y => Shifted d x.1 y.1 ∧ y.2.1 = x.2.1 + d) (l.finish r block size events)
      ((l.shift d).finish s (block + d) size events') := by
  refine (h.header block).bind ?_
  rintro t _ - rfl
  refine (h.writeFree block size t.prevFree).bind fun r₁ s₁ _ h₁ => ?_
  refine (h₁.insert hl block size).bind fun r₂ s₂ _ h₂ => ?_
  exact (h₂.notePrevFree block true).bind fun r₃ s₃ _ h₃ => .pure ⟨h₃, rfl⟩

theorem merge (h : Shifted d r s) (bp : Nat) :
    Mirrored (fun x y => Shifted d x.1 y.1 ∧ y.2.1 = x.2.1 + d) (l.merge r bp)
      ((l.shift d).merge s (bp + d)) := by
  rw [FreeLists.merge_steps, FreeLists.merge_steps]
  refine (h.header bp).bind ?_
  rintro t _ - rfl
  refine (h.next bp).bind ?_
  rintro after _ - rfl
  refine (h.header after).bind ?_
  rintro afterTag _ - rfl
  refine (h.beforeOf bp t).bind ?_
  rintro before _ - rfl
  have hside : (if afterTag.allocated then none else some (after + d))
      = Address.shift d (if afterTag.allocated then none else some after) := by
    cases afterTag.allocated <;> rfl
  have hblock : (Address.shift d before).getD (bp + d) = before.getD bp + d := by
    cases before <;> rfl
  rw [hside, hblock]
  refine (h.absorbSide hl t.size _).bind ?_
  rintro ⟨r₁, n₁⟩ ⟨s₁, n₁⟩ - ⟨h₁, rfl⟩
  refine (h₁.absorbSide hl _ before).bind ?_
  rintro ⟨r₂, n₂⟩ ⟨s₂, n₂⟩ - ⟨h₂, rfl⟩
  exact h₂.finish hl _ _ _ _

theorem release (h : Shifted d r s) (bp : Nat) :
    Mirrored (fun x y => Shifted d x.1 y.1) (l.release r bp)
      ((l.shift d).release s (bp + d)) := by
  refine (h.header bp).bind ?_
  rintro t _ - rfl
  refine (h.writeFree bp t.size t.prevFree).bind fun r₁ s₁ _ h₁ => ?_
  refine (h₁.notePrevFree bp true).bind fun r₂ s₂ _ h₂ => ?_
  refine (h₂.merge hl bp).bind ?_
  rintro ⟨r₃, _, _⟩ ⟨s₃, _, _⟩ - ⟨h₃, -⟩
  exact .pure h₃

end Region.Shifted

end BoundaryTag
