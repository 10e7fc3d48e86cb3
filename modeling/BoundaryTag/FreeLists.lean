import BoundaryTag.Link
import BoundaryTag.Block
import BoundaryTag.SizeClass

/-!
# FreeLists — lists inside the free blocks

Every size class has a doubly linked list of its free blocks. A list starts at a sentinel, which
has two links like a free block, so every listed block has something before it. The sentinels lie
side by side from `root` on.

* `insert` puts a block in front of the list of its class, and `remove` takes a block out of the
  list it is in, whichever that is.
* `firstFit` searches the class of a size and then every larger class, front to back, for the first
  block that is large enough.
-/

namespace BoundaryTag

@[simp] def sentinelSize : Nat := 8

/-- Lists with their sentinels at `root` and links that count from `base`. -/
structure FreeLists where
  root : Nat
  base : Nat
  deriving DecidableEq

namespace FreeLists

def links (l : FreeLists) : Links := ⟨l.base⟩

def clear (l : FreeLists) (r : Region) : Except Fault Region := do
  let bytes := SizeClass.count * sentinelSize
  Fault.require (l.root + bytes ≤ r.size) .outside
  return r.fill l.root 0 bytes

def sentinelAt (l : FreeLists) (index : Nat) : Nat := l.root + index * sentinelSize

def sentinel (l : FreeLists) (index : Nat) : Except Fault Nat := do
  Fault.require (index < SizeClass.count) (.badClass index)
  Address.add l.root (index * sentinelSize)

def first (l : FreeLists) (r : Region) (index : Nat) : Except Fault (Option Nat) := do
  l.links.next r (← l.sentinel index)

/-- Put the block at `bp`, which is in no list, in front of the list for `size`. -/
def insert (l : FreeLists) (r : Region) (bp size : Nat) : Except Fault Region := do
  let head ← l.sentinel (SizeClass.of size)
  let old ← l.links.next r head
  let r ← l.links.setNext r bp old
  let r ← l.links.setPrevious r bp (some head)
  match old with
  | none => l.links.setNext r head (some bp)
  | some o => do
    let r ← l.links.setPrevious r o (some bp)
    l.links.setNext r head (some bp)

def remove (l : FreeLists) (r : Region) (bp : Nat) : Except Fault Region := do
  let before ← l.links.previous r bp
  let after ← l.links.next r bp
  match before, after with
  | none, _ => .error (.unlinked bp)
  | some b, none => l.links.setNext r b none
  | some b, some a => do
    let r ← l.links.setPrevious r a (some b)
    l.links.setNext r b (some a)

/-! ## Search -/

/-- The first block from `cursor` on that has `need` bytes, within `fuel` blocks. -/
def fitFrom (l : FreeLists) (r : Region) (need : Nat) :
    Nat → Option Nat → Except Fault (Option Nat)
  | _, none => return none
  | 0, some _ => .error .endless
  | fuel + 1, some bp => do
    if need ≤ (← r.header bp).size then
      return some bp
    else
      fitFrom l r need fuel (← l.links.next r bp)

/-- The first block with `need` bytes in the list of a class. A list without repetitions has fewer
blocks than the region has bytes, so a search that goes on longer never ends. -/
def fitInClass (l : FreeLists) (r : Region) (need index : Nat) : Except Fault (Option Nat) := do
  l.fitFrom r need (r.size + 1) (← l.first r index)

def fitInClasses (l : FreeLists) (r : Region) (need : Nat) :
    List Nat → Except Fault (Option Nat)
  | [] => return none
  | index :: rest => do
    match ← l.fitInClass r need index with
    | some bp => return some bp
    | none => fitInClasses l r need rest

/-- The first block with `need` bytes, from the class of that size upwards. -/
def firstFit (l : FreeLists) (r : Region) (need : Nat) : Except Fault (Option Nat) :=
  l.fitInClasses r need ((List.range SizeClass.count).drop (SizeClass.of need))

/-! ## Listing -/

/-- The blocks from `cursor` on, at most `limit` of them. -/
def blocksFrom (l : FreeLists) (r : Region) : Nat → Option Nat → Except Fault (List Nat)
  | _, none => return []
  | 0, some _ => return []
  | limit + 1, some bp => do
    let rest ← blocksFrom l r limit (← l.links.next r bp)
    return bp :: rest

def blocks (l : FreeLists) (r : Region) (limit index : Nat) : Except Fault (List Nat) := do
  l.blocksFrom r limit (← l.first r index)

end FreeLists

end BoundaryTag
