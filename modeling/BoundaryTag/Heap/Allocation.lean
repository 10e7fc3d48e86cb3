import BoundaryTag.Heap.Growth
import BoundaryTag.Heap.Payload

/-!
# Allocation — handing out memory and taking it back

The operations of a heap that hand out memory and take it back. A pointer is the payload address
of an allocated block, and a missing pointer is `none`.

* `tryAllocate` takes the first free block that fits a request and grows the heap if there is none.
* `allocate` forgets why a request was refused, apart from a note in the journal.
* `allocateZeroed` clears what it hands out.
* `free` takes a block back, and `resize` moves a payload to a block of another size.
-/

namespace BoundaryTag

namespace Heap

variable {σ : Type} [Storage σ]

def place (h : Heap σ) (bp need : Nat) : Except Fault (Heap σ) :=
  let l := h.lists
  h.perform fun r => l.place r bp need

/-- Allocate `size` bytes of payload. A request for no bytes is answered by `none`. -/
def tryAllocate (h : Heap σ) (size : Nat) :
    Except Fault (Heap σ × Except Refusal (Option Nat)) := do
  if size = 0 then
    return (h, .ok none)
  else
    match (blockFor size).filter (· ≤ maxBlock) with
    | none => return (h, .error (.tooLarge size))
    | some need =>
      match ← h.lists.firstFit h.region need with
      | some bp => return (← h.place bp need, .ok (some bp))
      | none => do
        let (h, grown) ← h.extend (max need h.config.growFloor)
        match grown with
        | .error e => return (h, .error e)
        | .ok bp => return (← h.place bp need, .ok (some bp))

def allocate (h : Heap σ) (size : Nat) : Except Fault (Heap σ × Option Nat) := do
  let (h, answer) ← h.tryAllocate size
  match answer with
  | .ok p => return (h, p)
  | .error e => return (h.note (.refused size e), none)

/-- Allocate `count` times `size` bytes of payload, all zero. -/
def allocateZeroed (h : Heap σ) (count size : Nat) : Except Fault (Heap σ × Option Nat) := do
  if count * size < 0x10000000000000000 then
    let (h, answer) ← h.allocate (count * size)
    match answer with
    | none => return (h, none)
    | some p => do
      let n ← h.payloadSize p
      let (h, _) ← h.edit fun r => return (r.fill p 0 n, ())
      return (h, some p)
  else
    return (h, none)

def free (h : Heap σ) (p : Option Nat) : Except Fault (Heap σ) :=
  match p with
  | none => return h
  | some bp =>
    let l := h.lists
    h.perform fun r => l.release r bp

/-- Move the payload at `p` to a new block for `size` bytes, as far as both have room, and free
the old block. To move to no bytes is to free, and to move nothing is to allocate. If the new
block cannot be had, the old one stays. -/
def resize (h : Heap σ) (p : Option Nat) (size : Nat) : Except Fault (Heap σ × Option Nat) := do
  if size = 0 then
    return (← h.free p, none)
  else
    match p with
    | none => h.allocate size
    | some old => do
      let (h, answer) ← h.allocate size
      match answer with
      | none => return (h, none)
      | some new => do
        let n := min (← h.usableSize old) size
        let (h, _) ← h.edit fun r => do
          return (← r.copy old new n, ())
        return (← h.free (some old), some new)

end Heap

end BoundaryTag
