import BoundaryTag.Heap.Basic

/-!
# Payload — what a client sees of a block

What a client sees of an allocated block: all of it but its header.

* `usableSize` is the number of payload bytes that the header of a block promises.
* `payload` reads them, and `writePayload` changes a part of them.
-/

namespace BoundaryTag

namespace Heap

variable {σ : Type} [Storage σ]

def usableSize (h : Heap σ) (p : Nat) : Except Fault Nat := do
  Address.sub (← h.region.header p).size 4

/-- The number of payload bytes of the block at `p`, all of which must be in the region. -/
def payloadSize (h : Heap σ) (p : Nat) : Except Fault Nat := do
  let n ← h.usableSize p
  Fault.require (p + n ≤ h.region.size) .outside
  return n

def payload (h : Heap σ) (p : Nat) : Except Fault ByteArray := do
  return h.region.slice p (← h.payloadSize p)

/-- Write `bs` into the payload of the block at `p`, from the byte with number `start` on. The
answer tells whether there was room for it. -/
def writePayload (h : Heap σ) (p start : Nat) (bs : ByteArray) : Except Fault (Heap σ × Bool) := do
  let n ← h.payloadSize p
  if start + bs.size ≤ n then
    let (h, _) ← h.edit fun r => do
      return (← r.store (p + start) bs, ())
    return (h, true)
  else
    return (h, false)

end Heap

end BoundaryTag
