import BoundaryTag.Fault

/-!
# Tag — the word at either end of a block

A tag is the word at either end of a block. Its upper 29 bits hold the size of the block, which is
a multiple of eight. Bit 0 says that the block is allocated, bit 1 that the block before it is
free, and bit 2 has no meaning.

* `Tag.make` puts a tag together, and its parts are read back (`size_make`, `allocated_make`,
  `prevFree_make`).
* `Tag.pack` is `Tag.make` for the sizes that a tag can hold, and a fault for others.
* `Tag.withPrevFree` changes bit 1 and nothing else.
-/

namespace BoundaryTag

/-- The word at either end of a block. -/
structure Tag where
  word : UInt32
  deriving DecidableEq

namespace Tag

def size (t : Tag) : Nat := t.word.toNat / 8 * 8

def allocated (t : Tag) : Bool := t.word.toNat % 2 == 1

/-- The block before this one is free. -/
def prevFree (t : Tag) : Bool := t.word.toNat / 2 % 2 == 1

def make (size : Nat) (allocated prevFree : Bool) : Tag :=
  ⟨UInt32.ofNat (size + allocated.toNat + 2 * prevFree.toNat)⟩

def pack (size : Nat) (allocated prevFree : Bool) : Except Fault Tag := do
  Fault.require (size % 8 = 0 ∧ size < 0x100000000) (.badSize size)
  return make size allocated prevFree

/-- The same tag with another note about the block before. -/
def withPrevFree (t : Tag) (prevFree : Bool) : Tag :=
  ⟨UInt32.ofNat (t.word.toNat / 4 * 4 + t.word.toNat % 2 + 2 * prevFree.toNat)⟩

theorem pack_eq {n : Nat} (a p : Bool) (h8 : n % 8 = 0) (h : n < 0x100000000) :
    pack n a p = .ok (make n a p) := by
  rw [pack, Fault.require_eq _ ⟨h8, h⟩, Fault.ok_bind, Fault.pure_eq_ok]

theorem size_mod (t : Tag) : t.size % 8 = 0 := by
  unfold size
  omega

theorem size_le (t : Tag) : t.size ≤ 0xfffffff8 := by
  have h := t.word.toNat_lt
  unfold size
  omega

theorem toNat_word_make {n : Nat} (a p : Bool) (h8 : n % 8 = 0) (h : n < 0x100000000) :
    (make n a p).word.toNat = n + a.toNat + 2 * p.toNat := by
  have ha := a.toNat_le
  have hp := p.toNat_le
  rw [make, UInt32.toNat_ofNat']
  omega

theorem size_make {n : Nat} (a p : Bool) (h8 : n % 8 = 0) (h : n < 0x100000000) :
    (make n a p).size = n := by
  have ha := a.toNat_le
  have hp := p.toNat_le
  rw [size, toNat_word_make a p h8 h]
  omega

theorem allocated_make {n : Nat} (a p : Bool) (h8 : n % 8 = 0) (h : n < 0x100000000) :
    (make n a p).allocated = a := by
  rw [allocated, toNat_word_make a p h8 h]
  cases a <;> cases p <;> simp <;> omega

theorem prevFree_make {n : Nat} (a p : Bool) (h8 : n % 8 = 0) (h : n < 0x100000000) :
    (make n a p).prevFree = p := by
  rw [prevFree, toNat_word_make a p h8 h]
  cases a <;> cases p <;> simp <;> omega

theorem toNat_word_withPrevFree (t : Tag) (p : Bool) :
    (t.withPrevFree p).word.toNat
      = t.word.toNat / 4 * 4 + t.word.toNat % 2 + 2 * p.toNat := by
  have h := t.word.toNat_lt
  have hp := p.toNat_le
  rw [withPrevFree, UInt32.toNat_ofNat']
  omega

@[simp] theorem size_withPrevFree (t : Tag) (p : Bool) : (t.withPrevFree p).size = t.size := by
  have hp := p.toNat_le
  rw [size, size, toNat_word_withPrevFree]
  omega

@[simp] theorem allocated_withPrevFree (t : Tag) (p : Bool) :
    (t.withPrevFree p).allocated = t.allocated := by
  have h : (t.withPrevFree p).word.toNat % 2 = t.word.toNat % 2 := by
    rw [toNat_word_withPrevFree]
    omega
  rw [allocated, h, allocated]

@[simp] theorem prevFree_withPrevFree (t : Tag) (p : Bool) :
    (t.withPrevFree p).prevFree = p := by
  rw [prevFree, toNat_word_withPrevFree]
  cases p <;> simp <;> omega

end Tag

end BoundaryTag
