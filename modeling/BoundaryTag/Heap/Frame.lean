import BoundaryTag.FreeLists
import BoundaryTag.Size

/-!
# Frame — what a heap has besides its blocks

What a heap consists of apart from its blocks: a padding word, the prologue and the epilogue. The
prologue is an allocated block with both tags, and the sentinels of the free lists are its
payload. The epilogue is the header of an allocated block of size zero, which has no bytes of its
own.

* `Region.writeFrame` writes the frame of a heap without blocks.
* `Region.raiseEpilogue` moves the epilogue up and leaves a free block behind it.
-/

namespace BoundaryTag

@[simp] def prologueSize : Nat := 120

/-- The bytes of a heap without blocks: padding, prologue and epilogue. -/
@[simp] def frameSize : Nat := 128

theorem prologueSize_eq : prologueSize = 2 * wordSize + SizeClass.count * sentinelSize := rfl

theorem frameSize_eq : frameSize = wordSize + prologueSize + wordSize := rfl

namespace Region

/-- Write the frame of a heap at `lo`, with empty free lists. -/
def writeFrame (r : Region) (lo : Nat) : Except Fault Region := do
  let prologue ← Address.add lo 8
  let r ← r.write lo 0
  let r ← r.writeAllocated prologue prologueSize false
  let r ← FreeLists.clear ⟨prologue, lo⟩ r
  let afterwards ← Address.add prologue prologueSize
  let r ← r.write (← Address.sub afterwards 8) (← Tag.pack prologueSize true false).word
  r.write (← headerAddr afterwards) (← Tag.pack 0 true false).word

/-- Turn the `size` bytes at `bp`, which are new, into a free block. The old epilogue becomes its
header, and a new epilogue follows it. -/
def raiseEpilogue (r : Region) (bp size : Nat) : Except Fault Region := do
  let t ← r.header bp
  let r ← r.writeFree bp size t.prevFree
  r.write (← headerAddr (← Address.add bp size)) (← Tag.pack 0 true true).word

end Region

end BoundaryTag
