import BoundaryTag.Audit.Outline
import BoundaryTag.Heap.Layout

/-!
# Prospect — what comes of a new heap

What comes of laying out a heap, by sizes alone: how many bytes the source holds, how many it may
hold, and how many the first block shall have.

* `Prospect.of` puts the frame above the bytes that are held, and `Prospect.firstBlock` puts the
  first block behind the frame. The limits of a heap are looked at one after the other.
* `Prospect.Describes` says what such a result looks like in bytes.
-/

namespace BoundaryTag

inductive Prospect where
  /-- There is no room for the frame. -/
  | unframed (reason : Refusal)
  /-- The frame is at `lo`, and no block comes after it. -/
  | framed (lo : Nat) (reason : Refusal)
  /-- The heap at `lo` has a first block of `size` bytes. -/
  | laidOut (lo size : Nat)
  deriving DecidableEq

namespace Prospect

/-- The first block behind a frame at `lo`, in a source that may hold `limit` bytes. -/
def firstBlock (lo limit chunk : Nat) : Prospect :=
  let rounded := (chunk + 7) / 8 * 8
  let size := max rounded minBlock
  if 0xffffffffffffffff < chunk + 7 ∨ maxBlock < rounded then
    framed lo (.tooLarge chunk)
  else if 0xffffffff < frameSize + size then
    framed lo (.offsetOverflow (lo + frameSize + size))
  else if limit < lo + frameSize + size then
    framed lo (.outOfMemory size)
  else
    laidOut lo size

/-- What comes of a heap above `held` bytes, in a source that may hold `limit` bytes. -/
def of (held limit chunk : Nat) : Prospect :=
  let lo := (held + 7) / 8 * 8
  if limit < lo + frameSize then
    unframed (.outOfMemory (lo - held + frameSize))
  else
    firstBlock lo limit chunk

/-- The bytes that there are when a layout has ended. -/
def regionOf : Except LayoutFailure Heap → Region
  | .error e => e.source.region
  | .ok h => h.region

/-- A layout in a source has ended like this. A heap that results passes its check, and one free
block is all that there is on its chain. -/
def Describes (source : Source) : Prospect → Except LayoutFailure Heap → Prop
  | unframed reason, .error e => e.reason = reason ∧ e.source = source
  | framed lo reason, .error e => e.reason = reason ∧ e.source.region.size = lo + frameSize
  | laidOut lo size, .ok h => h.lo = lo ∧ h.region.size = lo + frameSize + size ∧ h.check = .ok []
      ∧ ∃ s, h.audit = .ok (.survey s) ∧ s.chain.located = [(lo + frameSize, ⟨size, false⟩)]
  | _, _ => False

end Prospect

end BoundaryTag
