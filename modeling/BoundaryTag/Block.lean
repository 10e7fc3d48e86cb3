import BoundaryTag.Region
import BoundaryTag.Tag

/-!
# Block — tags and neighbours in a region

A block is known by the address `bp` of its payload. Its header is the word just before that
address. A free block also repeats its header in a footer, the last word of the block; in an
allocated block the payload takes that place.

* `header`, `footerAddr`, `next` and `previous` find the tags of a block and its two neighbours.
* `writeFree` and `writeAllocated` write the tags of a block.
* `notePrevFree` tells the next block whether this one is free, and keeps the two tags of a free
  next block equal.
* A header can be read exactly where there are four bytes for it (`header_eq`, `header_eq_ok`).
-/

namespace BoundaryTag

namespace Region

def tag (r : Region) (a : Nat) : Except Fault Tag := do
  return ⟨← r.read a⟩

/-- The header of the block at `bp`, of the bytes that `byte` gives. -/
def tagAt (r : Region) (bp : Nat) : Tag := ⟨r.word (bp - 4)⟩

def headerAddr (bp : Nat) : Except Fault Nat := Address.sub bp 4

def header (r : Region) (bp : Nat) : Except Fault Tag := do
  r.tag (← headerAddr bp)

def footerAddr (r : Region) (bp : Nat) : Except Fault Nat := do
  let t ← r.header bp
  Address.sub (← Address.add (← headerAddr bp) t.size) 4

def next (r : Region) (bp : Nat) : Except Fault Nat := do
  let t ← r.header bp
  Address.add bp t.size

/-- The block just before the block at `bp`, which must be free: it is found by its footer. -/
def previous (r : Region) (bp : Nat) : Except Fault Nat := do
  let t ← r.header bp
  Fault.require t.prevFree (.notFree bp)
  let footer ← r.tag (← Address.sub bp 8)
  Address.sub bp footer.size

/-- Write both tags of a free block. -/
def writeFree (r : Region) (bp size : Nat) (prevFree : Bool) : Except Fault Region := do
  let t ← Tag.pack size false prevFree
  let a ← headerAddr bp
  let r ← r.write a t.word
  let footer ← Address.sub (← Address.add a size) 4
  r.write footer t.word

/-- Write the header of an allocated block. -/
def writeAllocated (r : Region) (bp size : Nat) (prevFree : Bool) : Except Fault Region := do
  let t ← Tag.pack size true prevFree
  r.write (← headerAddr bp) t.word

/-- Tell the block after the block at `bp` whether the latter is free. -/
def notePrevFree (r : Region) (bp : Nat) (prevFree : Bool) : Except Fault Region := do
  let following ← r.next bp
  let t := (← r.header following).withPrevFree prevFree
  let r ← r.write (← headerAddr following) t.word
  if t.allocated ∨ t.size = 0 then
    return r
  else
    r.write (← r.footerAddr following) t.word

/-! ## Headers that are there -/

theorem tag_eq {r : Region} {a : Nat} (h : a + 4 ≤ r.size) : r.tag a = .ok ⟨r.word a⟩ := by
  rw [tag, read_eq h, Fault.ok_bind, Fault.pure_eq_ok]

theorem header_eq {r : Region} {bp : Nat} (h4 : 4 ≤ bp) (h : bp ≤ r.size) :
    r.header bp = .ok (r.tagAt bp) := by
  rw [header, headerAddr, Address.sub_eq h4, Fault.ok_bind, tag_eq (by omega), tagAt]

theorem header_eq_ok {r : Region} {bp : Nat} {t : Tag} (h : r.header bp = .ok t) :
    4 ≤ bp ∧ bp ≤ r.size ∧ t = r.tagAt bp := by
  have h4 : 4 ≤ bp := by
    refine Nat.le_of_not_lt fun h4 => ?_
    rw [header, headerAddr, Address.sub, if_neg (by omega)] at h
    cases h
  have hs : bp ≤ r.size := by
    refine Nat.le_of_not_lt fun hs => ?_
    rw [header, headerAddr, Address.sub_eq h4] at h
    rw [Fault.ok_bind, tag, read, if_neg (by omega)] at h
    cases h
  rw [header_eq h4 hs] at h
  cases h
  exact ⟨h4, hs, rfl⟩

end Region

end BoundaryTag
