import BoundaryTag.FreeLists
import BoundaryTag.Journal
import BoundaryTag.Size

/-!
# Placement — how a block changes hands

How a free block changes hands. The functions work on the bytes of the region and say which events
took place.

* `place` takes a free block out of its list and allocates its front. A rest that can be a block
  of its own is split off; a smaller one stays with the allocated block.
* `merge` joins a block that has just become free with the free blocks on either side of it, and
  puts the result in a list.
* `release` frees an allocated block.
-/

namespace BoundaryTag

namespace FreeLists

/-- Allocate `need` bytes at the front of the free block at `bp`. -/
def place (l : FreeLists) (r : Region) (bp need : Nat) : Except Fault (Region × List Event) := do
  let t ← r.header bp
  Fault.require (t.allocated = false) (.notFree bp)
  Fault.require (need ≤ t.size) (.tooSmall bp)
  let r ← l.remove r bp
  let left := t.size - need
  if minBlock ≤ left then
    let rest ← Address.add bp need
    let r ← r.writeAllocated bp need t.prevFree
    let r ← r.writeFree rest left false
    let r ← r.notePrevFree rest true
    let r ← l.insert r rest left
    return (r, [.split bp need left])
  else
    let r ← r.writeAllocated bp t.size t.prevFree
    let r ← r.notePrevFree bp false
    return (r, [])

/-- Take the free block at `bp` out of its list, and add its size to `size`. -/
def absorb (l : FreeLists) (r : Region) (size bp : Nat) : Except Fault (Region × Nat) := do
  let t ← r.header bp
  Fault.require (t.allocated = false) (.notFree bp)
  let total ← Address.add size t.size
  let r ← l.remove r bp
  return (r, total)

/-- Join the free block at `bp`, which has its tags but is in no list, with its free neighbours.
The answer holds the address of the block that results. -/
def merge (l : FreeLists) (r : Region) (bp : Nat) :
    Except Fault (Region × Nat × List Event) := do
  let t ← r.header bp
  let after ← r.next bp
  let afterTag ← r.header after
  let before ← if t.prevFree then some <$> r.previous bp else pure none
  let (r, size) ← if afterTag.allocated then pure (r, t.size) else l.absorb r t.size after
  let (r, size) ← match before with
    | none => pure (r, size)
    | some b => l.absorb r size b
  let block := before.getD bp
  let blockTag ← r.header block
  let r ← r.writeFree block size blockTag.prevFree
  let r ← l.insert r block size
  let r ← r.notePrevFree block true
  if afterTag.allocated ∧ before = none then
    return (r, block, [])
  else
    return (r, block, [.coalesce block size])

def release (l : FreeLists) (r : Region) (bp : Nat) : Except Fault (Region × List Event) := do
  let t ← r.header bp
  let r ← r.writeFree bp t.size t.prevFree
  let r ← r.notePrevFree bp true
  let (r, _, events) ← l.merge r bp
  return (r, events)

end FreeLists

end BoundaryTag
