import BoundaryTag.Heap.Basic

/-!
# Stats — counting blocks

`Heap.stats` counts the blocks of a heap and their bytes by following the headers from the
prologue to the first block of size zero. The walk gets further with every block, so it ends, if
not at the epilogue then past the end of the region.
-/

namespace BoundaryTag

structure Stats where
  /-- The size of the whole heap with its frame. -/
  heapSize : Nat
  allocatedBlocks : Nat
  allocatedBytes : Nat
  freeBlocks : Nat
  freeBytes : Nat
  deriving DecidableEq

def Stats.add (s : Stats) (t : Tag) : Stats :=
  if t.allocated then
    { s with
      allocatedBlocks := s.allocatedBlocks + 1
      allocatedBytes := s.allocatedBytes + t.size }
  else
    { s with
      freeBlocks := s.freeBlocks + 1
      freeBytes := s.freeBytes + t.size }

namespace Region

/-- Count the blocks from `bp` on. The sizes add up to the way that was gone, so their sums stay
in the 64-bit range as long as the position does. -/
def tally (r : Region) (bp : Nat) (s : Stats) : Except Fault Stats :=
  match _hread : r.header bp with
  | .error e => .error e
  | .ok t =>
    if _hsize : t.size = 0 then
      .ok s
    else do
      Address.fits (bp + t.size)
      tally r (bp + t.size) (s.add t)
termination_by r.size + 1 - bp
decreasing_by
  have := header_eq_ok _hread
  omega

end Region

namespace Heap

def stats {σ : Type} [Storage σ] (h : Heap σ) : Except Fault Stats := do
  let size ← Address.sub h.region.size h.lo
  h.region.tally (← h.region.next h.prologue) ⟨size, 0, 0, 0, 0⟩

end Heap

end BoundaryTag
