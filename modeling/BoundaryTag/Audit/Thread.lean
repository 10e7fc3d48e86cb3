import BoundaryTag.Audit.Violation
import BoundaryTag.FreeLists

/-!
# Thread — blocks as the lists lead to them

The blocks that a list leads to, whatever the region holds. A thread is followed from its sentinel
by the links onwards, until there is no link, it leaves the heap, or it comes to a block that this
or an earlier thread has been to. There are only so many addresses to go to, so it ends on any
bytes.

* `FreeLists.follow` follows one list and keeps what it read, and `FreeLists.threads` does so for
  all of them in turn.
* `Thread.violations` says which rules the blocks of a thread break.
* `Thread.dump` lists them for the log.
-/

namespace BoundaryTag

/-- A block that a list leads to, with its link back and its header. -/
structure ThreadNode where
  addr : Nat
  back : Option Nat
  tag : Tag
  deriving DecidableEq

inductive ThreadEnd where
  /-- There is no further link. -/
  | done
  /-- The last link leads out of the heap. -/
  | outside (addr : Nat)
  /-- The last link leads to a block that was there before. -/
  | again (addr : Nat)
  deriving DecidableEq

/-- The blocks of the list of a class, and what comes after them. -/
structure Thread where
  index : Nat
  sentinel : Nat
  nodes : List ThreadNode
  stop : ThreadEnd
  deriving DecidableEq

namespace FreeLists

/-- The addresses below `size` where no thread has been. -/
def unvisited (size : Nat) (visited : List Nat) : List Nat :=
  (List.range size).filter (· ∉ visited)

theorem length_unvisited_cons {size a : Nat} {visited : List Nat} (h : a < size)
    (ha : a ∉ visited) :
    (unvisited size (a :: visited)).length < (unvisited size visited).length := by
  have hsplit : unvisited size (a :: visited)
      = (unvisited size visited).filter (· ≠ a) := by
    unfold unvisited
    rw [List.filter_filter]
    apply List.filter_congr
    intro x _
    simp [List.mem_cons]
  rw [hsplit, List.length_filter_lt_length_iff_exists]
  exact ⟨a, by simp [unvisited, h, ha], by simp⟩

/-- The blocks from `cursor` on in a heap at `lo`. Blocks in `visited` were there before. -/
def follow (l : FreeLists) (r : Region) (lo : Nat) (visited : List Nat) (cursor : Option Nat) :
    Except Fault (List ThreadNode × ThreadEnd) := do
  match cursor with
  | none => return ([], .done)
  | some a =>
    Address.fits (a + 8)
    if _ : a < lo + 8 ∨ r.size < a + 8 then
      return ([], .outside a)
    else if _ : a ∈ visited then
      return ([], .again a)
    else
      let back ← l.links.previous r a
      let t ← r.header a
      let (rest, stop) ← follow l r lo (a :: visited) (← l.links.next r a)
      return (⟨a, back, t⟩ :: rest, stop)
termination_by (unvisited r.size visited).length
decreasing_by exact length_unvisited_cons (by omega) ‹_›

def threadsFrom (l : FreeLists) (r : Region) (lo : Nat) :
    List Nat → List Nat → Except Fault (List Thread)
  | _, [] => return []
  | visited, index :: classes => do
    let sentinel ← l.sentinel index
    let (nodes, stop) ← l.follow r lo visited (← l.links.next r sentinel)
    let rest ← threadsFrom l r lo (nodes.map ThreadNode.addr ++ visited) classes
    return ⟨index, sentinel, nodes, stop⟩ :: rest

def threads (l : FreeLists) (r : Region) (lo : Nat) : Except Fault (List Thread) :=
  l.threadsFrom r lo [] (List.range SizeClass.count)

end FreeLists

/-! ## Rules of the lists -/

namespace ThreadNode

/-- A block must link back to the one it was reached from. -/
def backViolations (n : ThreadNode) (index prev : Nat) : List Violation :=
  if n.back = some prev then [] else [.linkMismatch index n.addr prev n.back]

/-- A listed block must be one of the free blocks, in the list of its size. -/
def placeViolations (n : ThreadNode) (index : Nat) (freeBlocks : List Nat) : List Violation :=
  if n.tag.allocated then
    [.allocatedInList index n.addr]
  else if n.addr ∉ freeBlocks then
    [.notABlock index n.addr]
  else if SizeClass.of n.tag.size ≠ index then
    [.wrongClass index n.addr n.tag.size]
  else
    []

end ThreadNode

namespace ThreadEnd

def violations (index : Nat) : ThreadEnd → List Violation
  | done => []
  | outside addr => [.listOutOfBounds index addr]
  | again addr => [.cycle index addr]

end ThreadEnd

namespace Thread

/-- The rules that blocks and an end break after the block at `prev`. -/
def violationsFrom (index : Nat) (freeBlocks : List Nat) (stop : ThreadEnd) :
    Nat → List ThreadNode → List Violation
  | _, [] => stop.violations index
  | prev, n :: rest =>
    n.backViolations index prev ++ n.placeViolations index freeBlocks
      ++ violationsFrom index freeBlocks stop n.addr rest

def violations (t : Thread) (freeBlocks : List Nat) : List Violation :=
  violationsFrom t.index freeBlocks t.stop t.sentinel t.nodes

/-- A thread as the log shows it: nothing for a list without blocks. -/
def dump (t : Thread) : List String :=
  if t.nodes = [] ∧ t.stop = .done then
    []
  else
    ("size class " ++ toString t.index ++ ":")
      :: t.nodes.map fun n => "  " ++ hexAddr n.addr ++ ": " ++ toString n.tag.size ++ " bytes"

end Thread

end BoundaryTag
