import BoundaryTag.Heap.Growth
import BoundaryTag.Plan.Extent

/-!
# Plan — a heap without bytes

A plan is a heap without its bytes: the extents of its blocks, and for every size class the
addresses of its free blocks in the order in which they are tried. The operations say what a heap
does in these terms. They know nothing of tags and links.

* `Plan.settle` merges a block that has just become free with its neighbours and lists the result.
* `Plan.place`, `Plan.grow` and `Plan.free` are the steps of an allocator.
* `Plan.allocate` and `Plan.resize` put them together as a heap does.
-/

namespace BoundaryTag

structure Plan where
  lo : Nat
  extents : List Extent
  lists : Nat → List Nat

namespace Plan

def start (p : Plan) : Nat := p.lo + frameSize

/-- The end of the heap, where the epilogue is. -/
def top (p : Plan) : Nat := Extent.stop p.start p.extents

def find? (p : Plan) (a : Nat) : Option Extent := Extent.find? a p.start p.extents

/-- The size of the block at an address, and zero if there is none. -/
def sizeAt (p : Plan) (a : Nat) : Nat := (p.find? a).elim 0 Extent.size

/-- Put the block at `a` in front of the list for `size`. -/
def push (lists : Nat → List Nat) (a size : Nat) (index : Nat) : List Nat :=
  if index = SizeClass.of size then a :: lists index else lists index

/-- Take the blocks from `a` to `stop` out of their lists. -/
def drop (lists : Nat → List Nat) (a stop : Nat) (index : Nat) : List Nat :=
  (lists index).filter fun x => ¬(a ≤ x ∧ x < stop)

/-- The plan of a new heap, which has one free block. -/
def fresh (lo size : Nat) : Plan :=
  ⟨lo, [⟨size, false⟩], push (fun _ => []) (lo + frameSize) size⟩

/-- Make `es` the extents, in which the `size` bytes at `x` have just become free. The free
neighbours leave their lists, and the merged block comes to the front of its own. -/
def settle (p : Plan) (es : List Extent) (x size : Nat) : Plan × Nat × List Event :=
  let merged := Extent.merge es
  match Extent.covering? x p.start merged with
  | none => (p, x, [])
  | some (a, n) =>
    (⟨p.lo, merged, push (drop p.lists a (a + n)) a n⟩, a,
      if n = size then [] else [.coalesce a n])

/-- Allocate `need` bytes at the front of the free block at `a`. -/
def place (p : Plan) (a need : Nat) : Plan × List Event :=
  let size := p.sizeAt a
  let left := size - need
  let lists := drop p.lists a (a + 1)
  if minBlock ≤ left then
    (⟨p.lo, Extent.replaceAt a [⟨need, true⟩, ⟨left, false⟩] p.start p.extents,
        push lists (a + need) left⟩, [.split a need left])
  else
    (⟨p.lo, Extent.replaceAt a [⟨size, true⟩] p.start p.extents, lists⟩, [])

/-- Add `size` free bytes at the top. -/
def grow (p : Plan) (size : Nat) : Plan × Nat × List Event :=
  match p.settle (p.extents ++ [⟨size, false⟩]) p.top size with
  | (q, a, events) => (q, a, .grow p.top size :: events)

def free (p : Plan) (a : Nat) : Plan × List Event :=
  let size := p.sizeAt a
  match p.settle (Extent.replaceAt a [⟨size, false⟩] p.start p.extents) a size with
  | (q, _, events) => (q, events)

/-- The first block with `need` bytes, from the class of that size upwards. -/
def firstFit (p : Plan) (need : Nat) : Option Nat :=
  ((List.range SizeClass.count).drop (SizeClass.of need)).findSome? fun index =>
    (p.lists index).find? fun a => need ≤ p.sizeAt a

/-- The size by which a heap grows for a block of `need` bytes, or why it does not. The heap may
end wherever `admits` says. -/
def growth (p : Plan) (admits : Nat → Bool) (bytes : Nat) : Except Refusal Nat :=
  match growthFor bytes with
  | none => .error (.tooLarge bytes)
  | some size =>
    if Address.last < p.top + size then
      .error (.offsetOverflow Address.last)
    else if 0xffffffff < p.top + size - p.lo then
      .error (.offsetOverflow (p.top + size))
    else if admits (p.top + size) then
      .ok size
    else
      .error (.outOfMemory size)

def allocate (p : Plan) (config : Config) (admits : Nat → Bool) (size : Nat) :
    Plan × Except Refusal (Option Nat) × List Event :=
  if size = 0 then
    (p, .ok none, [])
  else
    match (blockFor size).filter (· ≤ maxBlock) with
    | none => (p, .error (.tooLarge size), [])
    | some need =>
      match p.firstFit need with
      | some a =>
        match p.place a need with
        | (q, events) => (q, .ok (some a), events)
      | none =>
        match p.growth admits (max need config.growFloor) with
        | .error e => (p, .error e, [])
        | .ok more =>
          match p.grow more with
          | (q, a, events) =>
            match q.place a need with
            | (q, split) => (q, .ok (some a), events ++ split)

/-- Move the payload at `a` to a block for `size` bytes. -/
def resize (p : Plan) (config : Config) (admits : Nat → Bool) (a : Option Nat) (size : Nat) :
    Plan × Option Nat × List Event :=
  if size = 0 then
    match a with
    | none => (p, none, [])
    | some old =>
      match p.free old with
      | (q, events) => (q, none, events)
  else
    match p.allocate config admits size, a with
    | (q, .ok (some new), events), some old =>
      match q.free old with
      | (q, more) => (q, some new, events ++ more)
    | (q, .ok new, events), none => (q, new, events)
    | (q, .ok none, events), some _ => (q, none, events)
    | (q, .error _, events), _ => (q, none, events)

end Plan

end BoundaryTag
