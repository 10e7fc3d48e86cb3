import BoundaryTag.Heap.Prospect
import BoundaryTag.Proofs.BytesBelow
import BoundaryTag.Proofs.FreedInAnyOrder

/-!
# LayoutOutcome — what comes of a new heap

The sizes of a source decide what comes of a heap in it.

* `growthFor_eq` and `Prospect.firstBlock_eq`: the first block by arithmetic, and by the plan of a
  heap without blocks.
* `Heap.layOut_outcome`: every layout ends as its prospect says, and the bytes that the source held
  before are kept.
-/

namespace BoundaryTag

open Extent

theorem growthFor_eq (bytes : Nat) : growthFor bytes
    = if 0xffffffffffffffff < bytes + 7 ∨ maxBlock < (bytes + 7) / 8 * 8 then none
      else some (max ((bytes + 7) / 8 * 8) minBlock) := by
  rw [growthFor, alignUp]
  by_cases hfits : bytes + 7 < 0x10000000000000000
  · rw [if_pos hfits, Option.filter_some]
    by_cases hmax : (bytes + 7) / 8 * 8 ≤ maxBlock
    · rw [if_pos (decide_eq_true hmax), if_neg (by omega), Option.map_some, Nat.max_comm]
    · rw [if_neg fun h => hmax (of_decide_eq_true h), if_pos (by omega), Option.map_none]
  · rw [if_neg hfits, if_pos (by omega)]
    rfl

/-- The first block is what the plan without blocks grows by. -/
theorem Prospect.firstBlock_eq {lo : Nat} (hlo : lo + frameSize ≤ Source.maxBuffer)
    (limit chunk : Nat) : Prospect.firstBlock lo limit chunk
      = match (⟨lo, [], fun _ => []⟩ : Plan).growth (fun size => decide (size ≤ limit)) chunk with
        | .error e => .framed lo e
        | .ok n => .laidOut lo n := by
  have htop : (⟨lo, [], fun _ => []⟩ : Plan).top = lo + frameSize := rfl
  rw [Prospect.firstBlock, Plan.growth, growthFor_eq, htop]
  by_cases hlarge : 0xffffffffffffffff < chunk + 7 ∨ maxBlock < (chunk + 7) / 8 * 8
  · simp only [if_pos hlarge]
  · simp only [if_neg hlarge]
    -- a block whose size a header can hold ends before addresses do
    have hlast : ¬Address.last < lo + frameSize + max ((chunk + 7) / 8 * 8) minBlock := by
      simp only [Address.last, frameSize, Source.maxBuffer, minBlock, maxBlock] at *
      omega
    rw [if_neg hlast]
    have hspan : lo + frameSize + max ((chunk + 7) / 8 * 8) minBlock - lo
        = frameSize + max ((chunk + 7) / 8 * 8) minBlock := by omega
    rw [hspan]
    split
    case isTrue => rfl
    case isFalse =>
      split
      case isTrue hlimit => rw [if_neg fun h => Nat.not_le.2 hlimit (of_decide_eq_true h)]
      case isFalse hlimit => rw [if_pos (decide_eq_true (Nat.not_lt.1 hlimit))]

namespace Heap

variable {source : Source}

/-- A source whose limit is that of a buffer at most is bound by nothing else. -/
theorem admits_of_limit (hlimit : source.limit ≤ Source.maxBuffer) :
    (fun size => decide (source.Admits size)) = fun size => decide (size ≤ source.limit) := by
  funext size
  apply decide_eq_decide.2
  cases hkind : source.kind with
  | buffer => exact Source.admits_buffer hkind hlimit size
  | mapping =>
      unfold Source.Admits
      rw [hkind]

/-- Every layout ends as its prospect says. -/
theorem layOut_described (config : Config) (hlimit : source.limit ≤ Source.maxBuffer) :
    ∃ result, layOut source config = .ok result
      ∧ (Prospect.of source.region.size source.limit config.initialChunk).Describes
        source result := by
  have hlt := source.region.size_lt
  have halign : alignUp source.region.size = some ((source.region.size + 7) / 8 * 8) :=
    if_pos (by omega)
  have hle := (alignUp_eq_some.1 halign).2.2.1
  generalize hlo : (source.region.size + 7) / 8 * 8 = lo at halign hle
  have hadmits := admits_of_limit hlimit
  have hroom : source.Admits (lo + frameSize) ↔ lo + frameSize ≤ source.limit :=
    decide_eq_decide.1 (congrFun hadmits (lo + frameSize))
  have htop : source.region.size + (lo - source.region.size + frameSize) = lo + frameSize := by
    omega
  rw [Prospect.of, hlo]
  -- the frame may not fit, and after it the first block may not
  rcases layOut_decided source config halign with ⟨hnone, he⟩ | ⟨grown, f, hgrow, rfl, hf⟩
  · have hfull := Source.grow_eq_none hnone
    rw [htop, hroom] at hfull
    refine ⟨_, he, ?_⟩
    rw [if_pos (Nat.lt_of_not_le hfull)]
    exact ⟨rfl, rfl⟩
  have hfits := (Source.grow_eq_some hgrow).1
  rw [htop, hroom] at hfits
  have hfirst := Prospect.firstBlock_eq (Nat.le_trans hfits hlimit) source.limit
    config.initialChunk
  rw [← hadmits, ← admits_framed config halign hgrow] at hfirst
  rw [if_neg (Nat.not_lt.2 hfits), hfirst]
  rcases hf with ⟨e, hgrowth, he⟩ | ⟨h, n, hgrowth, -, hrun, hf, -⟩
  · refine ⟨_, he, ?_⟩
    rw [planOf, lo_framed] at hgrowth
    rw [hgrowth]
    exact ⟨rfl, size_framed config halign hgrow⟩
  · rw [planOf, lo_framed] at hgrowth
    rw [hgrowth]
    have hs : h.region.Settled h.lo [⟨n, false⟩] (Plan.fresh lo n).lists :=
      hf.lo.symm ▸ hf.settled
    have hend : h.lo + frameSize + n = h.region.size := hs.drawn.stop_eq
    have hlo' : h.lo = lo := hf.lo
    refine ⟨_, hrun, hlo', ?_, check_of_holds hs.holds, _, audit_eq hs, ?_⟩
    · rw [← hend, hlo']
    · rw [← hlo']
      exact hs.drawn.chained.located_eq

/-- Every layout ends as its prospect says. What the source held before is in front of the region
that it leaves, however far it came. -/
theorem layOut_outcome (source : Source) (config : Config)
    (hlimit : source.limit ≤ Source.maxBuffer) :
    ∃ result, layOut source config = .ok result
      ∧ (Prospect.of source.region.size source.limit config.initialChunk).Describes source result
      ∧ (Prospect.regionOf result).slice 0 source.region.size = source.region.bytes := by
  rcases layOut_described config hlimit with ⟨result, hrun, hdescribed⟩
  refine ⟨result, hrun, hdescribed, ?_⟩
  have hlt := source.region.size_lt
  obtain ⟨lo, halign⟩ : ∃ lo, alignUp source.region.size = some lo := ⟨_, if_pos (by omega)⟩
  have hle := (alignUp_eq_some.1 halign).2.2.1
  rcases layOut_confined config halign with ⟨e, he, hconfined⟩ | ⟨h, he, -, hconfined⟩
  · obtain rfl : result = .error e := Except.ok.inj (hrun.symm.trans he)
    exact hconfined.slice_eq hle
  · obtain rfl : result = .ok h := Except.ok.inj (hrun.symm.trans he)
    exact hconfined.slice_eq hle

/-- With room for exactly one block there is a heap, and with a byte less there is only its frame.
-/
theorem layOut_outcome_at_limit :
    (200 ≤ Source.maxBuffer
        ∧ ∃ h s, layOut (⟨.buffer, ⟨⟨#[1, 2, 3, 4, 5]⟩, by decide⟩, 200, nofun⟩ : Source) ⟨60, 128⟩
            = .ok (.ok h)
          ∧ h.lo = 8 ∧ h.region.size = 200 ∧ h.check = .ok [] ∧ h.audit = .ok (.survey s)
          ∧ s.chain.located = [(136, ⟨64, false⟩)] ∧ h.region.slice 0 5 = ⟨#[1, 2, 3, 4, 5]⟩)
      ∧ 199 ≤ Source.maxBuffer
      ∧ ∃ e, layOut (⟨.buffer, ⟨⟨#[1, 2, 3, 4, 5]⟩, by decide⟩, 199, nofun⟩ : Source) ⟨60, 128⟩
            = .ok (.error e)
          ∧ e.reason = .outOfMemory 64 ∧ e.source.region.size = 136
          ∧ e.source.region.slice 0 5 = ⟨#[1, 2, 3, 4, 5]⟩ := by
  have hroom : 200 ≤ Source.maxBuffer := by decide
  have htight : 199 ≤ Source.maxBuffer := by decide
  refine ⟨⟨hroom, ?_⟩, htight, ?_⟩
  · rcases layOut_outcome ⟨.buffer, ⟨⟨#[1, 2, 3, 4, 5]⟩, by decide⟩, 200, nofun⟩ ⟨60, 128⟩
      hroom with ⟨_ | h, hrun, hdescribed, hkept⟩
    · exact hdescribed.elim
    · rcases hdescribed with ⟨hlo, hsize, hcheck, s, haudit, hlocated⟩
      exact ⟨h, s, hrun, hlo, hsize, hcheck, haudit, hlocated, hkept⟩
  · rcases layOut_outcome ⟨.buffer, ⟨⟨#[1, 2, 3, 4, 5]⟩, by decide⟩, 199, nofun⟩ ⟨60, 128⟩
      htight with ⟨e | _, hrun, hdescribed, hkept⟩
    · exact ⟨e, hrun, hdescribed.1, hdescribed.2, hkept⟩
    · exact hdescribed.elim

end Heap

end BoundaryTag
