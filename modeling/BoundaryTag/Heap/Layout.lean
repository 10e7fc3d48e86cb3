import BoundaryTag.Heap.Growth

/-!
# Layout — a new heap in a source

`Heap.layOut` builds a heap at the top of a source: the frame without blocks, then a first free
block. Bytes that the source holds already stay below the heap.
-/

namespace BoundaryTag

/-- A heap could not be laid out. Its source stays as far as it was grown by then. -/
structure LayoutFailure (σ : Type := Source) where
  reason : Refusal
  source : σ
  journal : List Entry

namespace Heap

def layOut {σ : Type} [Storage σ] (s : σ) (config : Config) :
    Except Fault (Except (LayoutFailure σ) (Heap σ)) :=
  let top := (Storage.region s).size
  match haligned : alignUp top with
  | none => return .error ⟨.offsetOverflow Address.last, s, []⟩
  | some lo =>
    if Address.last < lo + frameSize then
      return .error ⟨.offsetOverflow Address.last, s, []⟩
    else match Links.covers ⟨lo⟩ (lo + frameSize) with
      | .error e => return .error ⟨e, s, []⟩
      | .ok () =>
        let bytes := lo - top + frameSize
        match Storage.grow s bytes with
        | none => return .error ⟨.outOfMemory bytes, s, []⟩
        | some (source, base) => do
          Fault.require (base = top) (.displaced base)
          let h : Heap σ := ⟨source, config, lo, [], alignUp_mod haligned⟩
          let (h, _) ← h.edit fun r => do
            return (← r.writeFrame lo, ())
          let (h, first) ← (h.note (.event (.grow top bytes))).extend config.initialChunk
          match first with
          | .error e => return .error ⟨e, h.source, h.journal⟩
          | .ok _ => return .ok (h.note (.laidOut h.lo (← h.hi)))

end Heap

end BoundaryTag
