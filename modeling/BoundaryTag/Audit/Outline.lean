import BoundaryTag.Audit.Report
import BoundaryTag.Plan.Extent

/-!
# Outline — what the headers of a heap say

What the headers of a heap say about its blocks: where they are, how large, whether they are in use,
and whether the block before is free. The third bit of a tag, which has no meaning, is left out, and
so are footers and links.

* `Chain.outline` is the outline of a chain as an audit sees it, and `Extent.outline` that of
  extents.
* `Chain.located` and `Chain.extents` are its blocks by size and use.
* `Heap.survey?` is what an audit sees, and `Survey.members` are the blocks in the list of a class,
  first to last.
-/

namespace BoundaryTag

/-- What the header of the block at `addr` says. -/
structure Outline where
  addr : Nat
  size : Nat
  allocated : Bool
  prevFree : Bool
  deriving DecidableEq

def Tag.outline (t : Tag) (addr : Nat) : Outline := ⟨addr, t.size, t.allocated, t.prevFree⟩

def ChainEnd.outline? : ChainEnd → Option Outline
  | outside _ => none
  | epilogue addr t => some (t.outline addr)
  | overrun addr t => some (t.outline addr)

namespace Chain

/-- What the headers of a chain say, the last of them included. -/
def outline (c : Chain) : List Outline :=
  c.blocks.map (fun b => b.tag.outline b.addr) ++ c.stop.outline?.toList

def located (c : Chain) : List (Nat × Extent) :=
  c.blocks.map fun b => (b.addr, ⟨b.tag.size, b.tag.allocated⟩)

def extents (c : Chain) : List Extent := c.located.map Prod.snd

end Chain

/-- What an audit sees of a heap with a sound prologue. -/
def Heap.survey? (h : Heap) : Option Survey :=
  match h.audit with
  | .ok (.survey s) => some s
  | _ => none

theorem Heap.survey?_eq {h : Heap} {s : Survey} (ha : h.audit = .ok (.survey s)) :
    h.survey? = some s := by
  rw [survey?, ha]

/-- The blocks in the list of a class, first to last. -/
def Survey.members (s : Survey) (index : Nat) : List Nat :=
  (s.threads[index]?.elim [] Thread.nodes).map ThreadNode.addr

/-- What the headers of extents say that start at `a`, and the epilogue after them. -/
def Extent.outline (prevFree : Bool) (a : Nat) : List Extent → List Outline
  | [] => [⟨a, 0, true, prevFree⟩]
  | e :: es => ⟨a, e.size, e.allocated, prevFree⟩ :: outline (!e.allocated) (a + e.size) es

end BoundaryTag
