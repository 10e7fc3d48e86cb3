import BoundaryTag.Heap.Basic

/-!
# Growth — new blocks at the top

`Heap.extend` adds a free block at the top of the region and merges it with the last block if that
is free. It first finds out whether the new bytes can be had, and if not it changes nothing.
-/

namespace BoundaryTag

/-- The size of the free block that a growth by `bytes` adds. -/
def growthFor (bytes : Nat) : Option Nat :=
  ((alignUp bytes).filter (· ≤ maxBlock)).map (max minBlock)

namespace Heap

/-- Grow by at least `bytes` bytes. The answer is the free block at the top. -/
def extend {σ : Type} [Storage σ] (h : Heap σ) (bytes : Nat) :
    Except Fault (Heap σ × Except Refusal Nat) :=
  match growthFor bytes with
  | none => return (h, .error (.tooLarge bytes))
  | some size =>
    let top := h.region.size
    if Address.last < top + size then
      return (h, .error (.offsetOverflow Address.last))
    else match h.lists.links.covers (top + size) with
      | .error e => return (h, .error e)
      | .ok () =>
        match Storage.grow h.source size with
        | none => return (h, .error (.outOfMemory size))
        | some (source, bp) => do
          Fault.require (bp = top) (.displaced bp)
          let (h, _) ← { h with source := source }.edit fun r => do
            return (← r.raiseEpilogue bp size, ())
          let l := h.lists
          let (h, block, events) ← (h.note (.event (.grow bp size))).edit fun r => l.merge r bp
          return (h.noteEvents events, .ok block)

end Heap

end BoundaryTag
