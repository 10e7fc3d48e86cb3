import BoundaryTag.Audit.Violation
import BoundaryTag.Block
import BoundaryTag.Size

/-!
# Chain — blocks as their headers give them

The blocks of a heap as their headers give them, whatever the region holds. Starting from an
address, each header leads to the next block, until one has size zero or its block passes the end
of the region. Every step gets further up, so the walk ends on any bytes.

* `Region.chain` walks over the headers and keeps what it read.
* `Chain.violations` says which rules the blocks break.
* `Chain.dump` lists them for the log.
-/

namespace BoundaryTag

/-- A block that lies in the region, with its footer if it is free. -/
structure ChainBlock where
  addr : Nat
  tag : Tag
  footer : Option UInt32
  deriving DecidableEq

inductive ChainEnd where
  /-- There is no room for a header before `addr`. -/
  | outside (addr : Nat)
  /-- The block at `addr` has size zero. -/
  | epilogue (addr : Nat) (tag : Tag)
  /-- The block at `addr` passes the end of the region. -/
  | overrun (addr : Nat) (tag : Tag)
  deriving DecidableEq

structure Chain where
  blocks : List ChainBlock
  stop : ChainEnd
  deriving DecidableEq

namespace Region

/-- The footer of the block at `bp`, which has the header `t`, if it is free. -/
def footerOf (r : Region) (bp : Nat) (t : Tag) : Except Fault (Option UInt32) := do
  if t.allocated then
    return none
  else
    return some (← r.read (← r.footerAddr bp))

def chain (r : Region) (bp : Nat) : Except Fault Chain := do
  if r.size < bp then
    return ⟨[], .outside bp⟩
  else
    let t ← r.header bp
    if _ : t.size = 0 then
      return ⟨[], .epilogue bp t⟩
    else
      Address.fits (bp + t.size)
      if _ : r.size < bp + t.size then
        return ⟨[], .overrun bp t⟩
      else
        let footer ← r.footerOf bp t
        let rest ← chain r (bp + t.size)
        return ⟨⟨bp, t, footer⟩ :: rest.blocks, rest.stop⟩
termination_by r.size - bp

end Region

/-! ## Rules of the chain -/

/-- A header must know whether the block before it is free. -/
def Tag.staleAt (t : Tag) (addr : Nat) (prevAllocated : Bool) : List Violation :=
  if t.prevFree = prevAllocated then [.stalePrevFree addr t.prevFree] else []

/-- A block must be aligned and large enough, and its size a multiple of eight. -/
def Tag.shapeAt (t : Tag) (addr : Nat) : List Violation :=
  (if addr % alignment = 0 then [] else [.misaligned addr alignment])
    ++ (if minBlock ≤ t.size ∧ t.size % 8 = 0 then [] else [.badSize addr t.size])

namespace ChainBlock

def isFree (b : ChainBlock) : Bool := !b.tag.allocated

/-- The tags of a free block must agree. -/
def footerViolations (b : ChainBlock) : List Violation :=
  match b.footer with
  | none => []
  | some f => if f = b.tag.word then [] else [.footerMismatch b.addr b.tag.word f]

/-- The rules that a block breaks which comes after the block at `prev`. -/
def violations (b : ChainBlock) (prev : Nat) (prevAllocated : Bool) : List Violation :=
  b.tag.staleAt b.addr prevAllocated ++ b.tag.shapeAt b.addr ++ b.footerViolations
    ++ (if b.isFree ∧ prevAllocated = false then [.adjacentFree prev b.addr] else [])

def text (addr : Nat) (t : Tag) : String :=
  "  " ++ hexAddr addr ++ ": [" ++ toString t.size ++ ":" ++ (if t.allocated then "a" else "f")
    ++ "] prev_free: " ++ toString t.prevFree

end ChainBlock

namespace ChainEnd

/-- The rules that the end of a chain breaks in a region of `top` bytes. -/
def violations (e : ChainEnd) (top : Nat) (prevAllocated : Bool) : List Violation :=
  match e with
  | outside addr => [.blockOutOfBounds addr]
  | epilogue addr t =>
    t.staleAt addr prevAllocated
      ++ (if t.allocated ∧ addr = top then [] else [.badEpilogue addr])
  | overrun addr t =>
    t.staleAt addr prevAllocated ++ t.shapeAt addr ++ [.blockOutOfBounds addr]

def texts : ChainEnd → List String
  | outside _ => []
  | epilogue addr _ => ["  " ++ hexAddr addr ++ ": end of heap"]
  | overrun addr t => [ChainBlock.text addr t]

end ChainEnd

namespace Chain

/-- The rules that blocks and an end break after the block at `prev`. -/
def violationsFrom (top : Nat) (stop : ChainEnd) :
    Nat → Bool → List ChainBlock → List Violation
  | _, prevAllocated, [] => stop.violations top prevAllocated
  | prev, prevAllocated, b :: rest =>
    b.violations prev prevAllocated ++ violationsFrom top stop b.addr b.tag.allocated rest

/-- The rules that a chain breaks which comes after the prologue, an allocated block. -/
def violations (c : Chain) (top prologue : Nat) : List Violation :=
  violationsFrom top c.stop prologue true c.blocks

def freeBlocks (c : Chain) : List Nat := (c.blocks.filter ChainBlock.isFree).map ChainBlock.addr

theorem freeBlocks_cons {b : ChainBlock} {blocks : List ChainBlock} {stop : ChainEnd} :
    freeBlocks ⟨b :: blocks, stop⟩ = if b.tag.allocated then freeBlocks ⟨blocks, stop⟩
      else b.addr :: freeBlocks ⟨blocks, stop⟩ := by
  show (List.filter _ (b :: blocks)).map ChainBlock.addr = _
  rw [List.filter_cons, ChainBlock.isFree]
  cases b.tag.allocated with
  | false => rfl
  | true => rfl

def dump (c : Chain) : List String :=
  c.blocks.map (fun b => ChainBlock.text b.addr b.tag) ++ c.stop.texts

end Chain

end BoundaryTag
