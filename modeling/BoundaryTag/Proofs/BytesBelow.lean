import BoundaryTag.Proofs.ClientInvariant
import BoundaryTag.Proofs.PlanSteps

/-!
# BytesBelow — bytes below a heap

Bytes that a source holds before a heap is laid out in it lie below the heap, and nothing that
happens to the heap reaches them.

* `Region.Confined` says that a region has changed from an address upwards only. Such changes add up
  (`Confined.trans`), and what lies below the address stays (`Confined.slice_eq`).
* `Heap.layOut_confined`: this is so for a new heap, and also if it could not be laid out.
* `Client.step_confined`: a call by the rules changes the heap only.
* `Client.bytes_below_kept`: so the bytes below are as they were in every state that a client
  reaches.
-/

namespace BoundaryTag

namespace Region

/-- The bytes that are not as they were lie in the region at `lo` or above, and the region has not
become shorter. -/
structure Confined (lo : Nat) (before after : Region) : Prop where
  size : before.size ≤ after.size
  changed : ∀ i, after.byte i ≠ before.byte i → lo ≤ i ∧ i < after.size

namespace Confined

variable {lo i : Nat} {r s t : Region}

theorem of_below (hsize : r.size ≤ s.size) (hbelow : ∀ i, i < lo → s.byte i = r.byte i) :
    Confined lo r s := by
  refine ⟨hsize, fun i hi => ⟨?_, ?_⟩⟩
  · exact Nat.le_of_not_lt fun hlt => hi (hbelow i hlt)
  · -- past the end of the longer region both are zero
    refine Nat.lt_of_not_le fun hle => hi ?_
    rw [byte_of_size_le hle, byte_of_size_le (Nat.le_trans hsize hle)]

theorem refl (lo : Nat) (r : Region) : Confined lo r r :=
  of_below (Nat.le_refl _) fun _ _ => rfl

theorem byte_eq (h : Confined lo r s) (hi : i < lo) : s.byte i = r.byte i := by
  refine Classical.byContradiction fun hne => ?_
  exact absurd (h.changed i hne).1 (Nat.not_le.2 hi)

theorem trans (h : Confined lo r s) (h' : Confined lo s t) : Confined lo r t := by
  refine of_below (Nat.le_trans h.size h'.size) fun i hi => ?_
  calc t.byte i = s.byte i := h'.byte_eq hi
    _ = r.byte i := h.byte_eq hi

/-- All bytes of a region that ends at `lo` or below are still in front. -/
theorem slice_eq (h : Confined lo r s) (hlo : r.size ≤ lo) : s.slice 0 r.size = r.bytes := by
  have hself : r.slice 0 r.size = r.bytes := by
    rw [slice, Nat.zero_add]
    exact ByteArray.extract_zero_size
  have hsame : s.slice 0 r.size = r.slice 0 r.size := by
    have hsize := h.size
    refine slice_eq_slice (by omega) (by omega) fun i hi => ?_
    exact h.byte_eq (by omega)
  exact hsame.trans hself

end Confined

theorem byte_setFrame_below {r : Region} {lo i : Nat} (hi : i < lo) :
    (r.setFrame lo).byte i = r.byte i := by
  rw [setFrame, byte_setWord_of_ne (by omega), byte_setWord_of_ne (by omega), byte_fill,
    if_neg (by omega), byte_setAllocated (by omega), byte_setWord_of_ne (by omega)]

end Region

namespace Heap

open Region

variable {source : Source} {lo : Nat}

/-- The frame is written above the bytes that were there, and so is the first block. If the source
does not grow by them, nothing else has changed. -/
theorem layOut_confined (config : Config) (halign : alignUp source.region.size = some lo) :
    (∃ e, layOut source config = .ok (.error e) ∧ Confined lo source.region e.source.region)
      ∨ ∃ h, layOut source config = .ok (.ok h) ∧ h.lo = lo
        ∧ Confined lo source.region h.region := by
  rcases layOut_decided source config halign with ⟨-, he⟩ | ⟨grown, f, hgrow, rfl, hf⟩
  · exact .inl ⟨_, he, .refl lo _⟩
  have hframe :
      Confined lo source.region (framed grown config source.region.size halign).region := by
    rcases Source.grow_eq_some hgrow with ⟨-, -, hsize, -, -, hbyte⟩
    refine .of_below ?_ fun i hi => ?_
    · rw [region_framed, size_setFrame, hsize]
      exact Nat.le_add_right _ _
    · rw [region_framed, byte_setFrame_below hi, hbyte]
  rcases hf with ⟨e, -, he⟩ | ⟨h, n, -, -, hrun, hf, hbelow⟩
  · exact .inl ⟨_, he, hframe⟩
  · have hlong : lo + frameSize ≤ h.region.size := hf.settled.drawn.le_size
    refine .inr ⟨h, hrun, hf.lo.trans lo_framed, hframe.trans (.of_below ?_ hbelow)⟩
    rw [size_framed config halign hgrow]
    exact hlong

end Heap

namespace Client

open Region

variable {source : Source} {config : Config} {c : Client} {call : Call} {lo : Nat}

/-- A call by the rules comes through and changes bytes of the heap only. -/
theorem step_confined {es : List Extent} (hk : c.Keeps es) (ha : c.Allows call) :
    ∃ d answer, c.step call = .ok (d, answer) ∧ d.heap.lo = c.heap.lo
      ∧ Confined c.heap.lo c.heap.region d.heap.region := by
  rcases hk.settled with ⟨lists, hs⟩
  rcases step_follows hs hk ha with ⟨d, answer, q, events, hstep, hplan, hf, -, hspares⟩
  refine ⟨d, answer, hstep, hspares.lo, .of_below ?_ hspares.below⟩
  calc c.heap.region.size = (c.heap.planOf es lists).top := (Heap.top_planOf hs).symm
    _ ≤ ((c.heap.planOf es lists).step c.heap.config c.heap.admits call).1.top :=
        Plan.top_le_step _ _ _ _
    _ = d.heap.region.size := by rw [hplan, hf.size_eq]

/-- A heap stays where it was laid out, and the bytes below it stay as they were. -/
theorem Reaches.confined (hc : Reaches source config c)
    (halign : alignUp source.region.size = some lo) :
    c.heap.lo = lo ∧ Confined lo source.region c.heap.region := by
  induction hc with
  | @start h laidOut =>
      rcases Heap.layOut_confined config halign with
        ⟨e, he, -⟩ | ⟨k, hrun, hlo, hconfined⟩
      · cases he.symm.trans laidOut
      · cases hrun.symm.trans laidOut
        exact ⟨hlo, hconfined⟩
  | @step c d call answer reached allowed done ih =>
      rcases ih with ⟨hlo, hconfined⟩
      rcases reached.keeps with ⟨es, hk⟩
      rcases step_confined hk allowed with ⟨d', answer', hstep, hlo', hconfined'⟩
      cases hstep.symm.trans done
      rw [hlo] at hlo' hconfined'
      exact ⟨hlo', hconfined.trans hconfined'⟩

/-- Bytes that a source holds are in front of any region that it becomes, as they were: if a heap
could not be laid out, and in every state that a client reaches. A heap lies above them, at the next
multiple of eight, and what changes, at first or with any call by the rules, lies in the region from
there upwards. -/
theorem bytes_below_kept (source : Source) (config : Config) :
    ∃ lo result, alignUp source.region.size = some lo ∧ Heap.layOut source config = .ok result
      ∧ (∀ e, result = .error e →
          e.source.region.slice 0 source.region.size = source.region.bytes
            ∧ Confined lo source.region e.source.region)
      ∧ (∀ h, result = .ok h → h.lo = lo ∧ Confined lo source.region h.region)
      ∧ ∀ c, Reaches source config c → c.heap.lo = lo
          ∧ c.heap.region.slice 0 source.region.size = source.region.bytes
          ∧ ∀ call, c.Allows call → ∃ d answer, c.step call = .ok (d, answer)
            ∧ d.heap.lo = lo ∧ Confined lo c.heap.region d.heap.region := by
  have hlt := source.region.size_lt
  obtain ⟨lo, halign⟩ : ∃ lo, alignUp source.region.size = some lo := ⟨_, if_pos (by omega)⟩
  have hle := (alignUp_eq_some.1 halign).2.2.1
  have hreach : ∀ c, Reaches source config c → c.heap.lo = lo
      ∧ c.heap.region.slice 0 source.region.size = source.region.bytes
      ∧ ∀ call, c.Allows call → ∃ d answer, c.step call = .ok (d, answer)
        ∧ d.heap.lo = lo ∧ Confined lo c.heap.region d.heap.region := by
    intro c hc
    rcases hc.confined halign with ⟨rfl, hconfined⟩
    rcases hc.keeps with ⟨es, hk⟩
    exact ⟨rfl, hconfined.slice_eq hle, fun call ha => step_confined hk ha⟩
  rcases Heap.layOut_confined config halign with
    ⟨e, he, hconfined⟩ | ⟨h, hrun, hlo, hconfined⟩
  · refine ⟨lo, _, halign, he, fun e' he' => ?_, nofun, hreach⟩
    cases he'
    exact ⟨hconfined.slice_eq hle, hconfined⟩
  · refine ⟨lo, _, halign, hrun, nofun, fun h' hh => ?_, hreach⟩
    cases hh
    exact ⟨hlo, hconfined⟩

/-- A heap above five bytes, in which a block was freed again. -/
theorem bytes_below_kept_above_five :
    ∃ c, Reaches ⟨.buffer, ⟨⟨#[1, 2, 3, 4, 5]⟩, by decide⟩, 4096, nofun⟩ ⟨64, 64⟩ c
      ∧ c.heap.lo = 8 ∧ c.heap.region.size = 200 ∧ c.pointers = [152]
      ∧ c.heap.region.slice 0 5 = ⟨#[1, 2, 3, 4, 5]⟩
      ∧ ∃ d answer, c.step (.free (some 152)) = .ok (d, answer) ∧ d.heap.lo = 8
        ∧ Confined 8 c.heap.region d.heap.region := by
  let source : Source := ⟨.buffer, ⟨⟨#[1, 2, 3, 4, 5]⟩, by decide⟩, 4096, nofun⟩
  have hrun : (runFrom source ⟨64, 64⟩ [.allocate 12, .allocate 12, .free (some 136)]).map
      (fun c => (c.pointers, c.heap.region.size)) = some ([152], 200) := by
    decide +kernel
  rcases Option.map_eq_some_iff.1 hrun with ⟨c, hrun, hc⟩
  have hreach := reaches_iff.2 ⟨_, hrun⟩
  have hpointers : c.pointers = [152] := congrArg Prod.fst hc
  have hmem : 152 ∈ c.pointers := by
    rw [hpointers]
    exact List.mem_singleton_self 152
  rcases bytes_below_kept source ⟨64, 64⟩ with ⟨lo, -, halign, -, -, -, hstates⟩
  obtain rfl : lo = 8 := Option.some.inj (halign.symm.trans (by decide : alignUp 5 = some 8))
  rcases hstates c hreach with ⟨hlo, hkept, hcalls⟩
  exact ⟨c, hreach, hlo, congrArg Prod.snd hc, hpointers, hkept, hcalls _ (owns_of_mem hmem)⟩

end Client

end BoundaryTag
