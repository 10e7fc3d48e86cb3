import BoundaryTag.FreeLists
import BoundaryTag.Plan.Basic

/-!
# Representation — regions that hold a plan

When the bytes of a region are those of a plan. Nothing is said about payloads, about the third
bit of a tag, or about bytes below the heap.

* `Region.Carries` says that the headers from an address on are those of some extents: each size
  and each flag is right, a free block comes after an allocated one and has two equal tags, and
  the epilogue ends the region.
* `FreeLists.Threads` says that the links from a block on lead through some addresses and back.
* `Region.Holds` puts them together with the prologue: every list holds exactly the free blocks of
  its class, each once.
-/

namespace BoundaryTag

/-- The headers from `bp` on are those of the extents, where `prevFree` tells whether the block
before `bp` is free. -/
def Region.Carries (r : Region) : Nat → Bool → List Extent → Prop
  | bp, prevFree, [] =>
    bp = r.size ∧ (r.tagAt bp).size = 0 ∧ (r.tagAt bp).allocated = true
      ∧ (r.tagAt bp).prevFree = prevFree
  | bp, prevFree, e :: es =>
    minBlock ≤ e.size ∧ (r.tagAt bp).size = e.size ∧ (r.tagAt bp).allocated = e.allocated
      ∧ (r.tagAt bp).prevFree = prevFree
      ∧ (e.allocated = false →
          prevFree = false ∧ r.word (bp + e.size - 8) = (r.tagAt bp).word)
      ∧ Carries r (bp + e.size) (!e.allocated) es

/-- The links from `cursor` on lead through `nodes` and end there, and each of these links back to
the one before, the first of them to `prev`. -/
def FreeLists.Threads (l : FreeLists) (r : Region) : Nat → Option Nat → List Nat → Prop
  | _, cursor, [] => cursor = none
  | prev, cursor, a :: nodes =>
    cursor = some a ∧ l.links.linkAt r a = some prev
      ∧ Threads l r a (l.links.linkAt r (a + 4)) nodes

namespace Plan

def freeLists (p : Plan) : FreeLists := ⟨p.lo + 8, p.lo⟩

/-- The block at `a` is free and belongs to the class. -/
def FreeIn (p : Plan) (index a : Nat) : Prop :=
  ∃ e, (a, e) ∈ Extent.located p.start p.extents ∧ e.allocated = false
    ∧ SizeClass.of e.size = index

end Plan

/-- The bytes of a region are those of a plan. -/
structure Region.Holds (r : Region) (p : Plan) : Prop where
  prologue : (r.tagAt (p.lo + 8)).size = prologueSize ∧ (r.tagAt (p.lo + 8)).allocated = true
  footer : r.word (p.lo + prologueSize) = (r.tagAt (p.lo + 8)).word
  carries : r.Carries p.start false p.extents
  threads : ∀ index < SizeClass.count,
    p.freeLists.Threads r (p.freeLists.sentinelAt index)
      (p.freeLists.links.linkAt r (p.freeLists.sentinelAt index + 4)) (p.lists index)
  once : ∀ index, (p.lists index).Nodup
  exact : ∀ index a, a ∈ p.lists index ↔ p.FreeIn index a

end BoundaryTag
