import BoundaryTag.Audit.Outcome
import BoundaryTag.Audit.Outline
import BoundaryTag.Proofs.EmptyReports
import BoundaryTag.Proofs.ClientInvariant
import BoundaryTag.Proofs.PlanSteps

/-!
# Requests — what comes of a request

What comes of a request for memory can be told from the blocks and the end of the heap, and a
request that is refused leaves the heap as it was.

* `Heap.Unmoved`, and `Heap.tryAllocate_refused` and its like: no bytes and no events come of a
  request that is refused.
* `Heap.mem_free_surveyOf`: the free blocks that an audit sees are those of the plan.
* `Heap.growth_surveyOf` and `Heap.allocate_outcome`: what the plan of a heap does for a request is
  the outcome that an audit tells.
* `Client.step_denied`: whoever asks for memory in vain finds everything as it was.
* `Client.Reaches.requested` puts them together for every state that a client reaches.
-/

namespace BoundaryTag

open Extent

/-! ## Refusals -/

namespace Heap

variable {h h' : Heap} {size : Nat}

/-- The bytes and the events of a heap are as they were. The journal may have a new notice. -/
structure Unmoved (h h' : Heap) : Prop where
  region : h'.region = h.region
  events : h'.events = h.events

theorem Unmoved.refl (h : Heap) : h.Unmoved h := ⟨rfl, rfl⟩

theorem Unmoved.note (h : Heap) {e : Entry} (he : e.event? = none) : h.Unmoved (h.note e) := by
  refine ⟨rfl, ?_⟩
  rw [events_note, he]
  exact List.append_nil _

theorem extend_refused {bytes : Nat} {e : Refusal} (hrun : h.extend bytes = .ok (h', .error e)) :
    h' = h := by
  unfold extend at hrun
  split at hrun
  · cases hrun
    rfl
  dsimp only at hrun
  split at hrun
  · cases hrun
    rfl
  split at hrun
  · cases hrun
    rfl
  split at hrun
  · cases hrun
    rfl
  · -- the bytes could be had, so there is a block
    rcases Fault.bind_eq_ok.1 hrun with ⟨_, _, hrun⟩
    rcases Fault.bind_eq_ok.1 hrun with ⟨⟨h₁, _⟩, _, hrun⟩
    rcases Fault.bind_eq_ok.1 hrun with ⟨⟨h₂, block, events⟩, -, hrun⟩
    cases hrun

theorem tryAllocate_refused {answer : Except Refusal (Option Nat)}
    (hrun : h.tryAllocate size = .ok (h', answer)) (hnone : Plan.granted answer = none) :
    h' = h := by
  unfold tryAllocate at hrun
  split at hrun
  · cases hrun
    rfl
  split at hrun
  · cases hrun
    rfl
  rename_i need _
  rcases Fault.bind_eq_ok.1 hrun with ⟨first, -, hrun⟩
  cases first with
  | some bp =>
      rcases Fault.bind_eq_ok.1 hrun with ⟨h₁, -, hrun⟩
      cases hrun
      cases hnone
  | none =>
      rcases Fault.bind_eq_ok.1 hrun with ⟨⟨h₁, grown⟩, hext, hrun⟩
      cases grown with
      | error e =>
          cases hrun
          exact extend_refused hext
      | ok bp =>
          rcases Fault.bind_eq_ok.1 hrun with ⟨h₂, -, hrun⟩
          cases hrun
          cases hnone

theorem allocate_refused (hrun : h.allocate size = .ok (h', none)) : h.Unmoved h' := by
  unfold allocate at hrun
  rcases Fault.bind_eq_ok.1 hrun with ⟨⟨h₁, answer⟩, htry, hrun⟩
  cases answer with
  | error e =>
      cases hrun
      rw [tryAllocate_refused htry rfl]
      exact .note h rfl
  | ok p =>
      cases hrun
      rw [tryAllocate_refused htry rfl]
      exact .refl h

theorem allocateZeroed_refused {count : Nat}
    (hrun : h.allocateZeroed count size = .ok (h', none)) : h.Unmoved h' := by
  unfold allocateZeroed at hrun
  split at hrun
  case isFalse =>
    cases hrun
    exact .refl h
  case isTrue =>
    rcases Fault.bind_eq_ok.1 hrun with ⟨⟨h₁, answer⟩, halloc, hrun⟩
    cases answer with
    | none =>
        cases hrun
        exact allocate_refused halloc
    | some p =>
        rcases Fault.bind_eq_ok.1 hrun with ⟨n, -, hrun⟩
        rcases Fault.bind_eq_ok.1 hrun with ⟨⟨h₂, _⟩, _, hrun⟩
        cases hrun

theorem resize_refused {p : Option Nat} (hsize : size ≠ 0)
    (hrun : h.resize p size = .ok (h', none)) : h.Unmoved h' := by
  unfold resize at hrun
  rw [if_neg hsize] at hrun
  cases p with
  | none => exact allocate_refused hrun
  | some old =>
      rcases Fault.bind_eq_ok.1 hrun with ⟨⟨h₁, answer⟩, halloc, hrun⟩
      cases answer with
      | none =>
          cases hrun
          exact allocate_refused halloc
      | some new =>
          rcases Fault.bind_eq_ok.1 hrun with ⟨n, -, hrun⟩
          rcases Fault.bind_eq_ok.1 hrun with ⟨⟨h₂, _⟩, _, hrun⟩
          rcases Fault.bind_eq_ok.1 hrun with ⟨h₃, -, hrun⟩
          cases hrun

/-! ## Outcomes -/

variable {es : List Extent} {lists : Nat → List Nat} {limit : Nat}

/-- What an audit sees of a heap tells by how much it grows. -/
theorem growth_surveyOf {bytes : Nat} (hs : h.region.Settled h.lo es lists)
    (hadmits : ∀ n, h.admits n = decide (n ≤ limit)) (hmin : minBlock ≤ bytes) :
    (h.planOf es lists).growth h.admits bytes = (h.surveyOf es lists).growth limit bytes := by
  have htop : (h.surveyOf es lists).top = h.region.size := rfl
  have hlo : (h.surveyOf es lists).lo = h.lo := rfl
  rw [Plan.growth, Survey.growth, growthFor_of_le hmin, top_planOf hs, lo_planOf, htop, hlo]
  cases hn : (alignUp bytes).filter (· ≤ maxBlock) with
  | none => rfl
  | some n =>
      have hr := h.region.size_lt
      have hmax : n ≤ 0xfffffff8 := of_decide_eq_true (Option.filter_eq_some_iff.1 hn).2
      have hlast : ¬Address.last < h.region.size + n := by
        show ¬0xffffffffffffffff < h.region.size + n
        omega
      simp only
      rw [if_neg hlast, hadmits]
      by_cases hspan : 0xffffffff < h.region.size + n - h.lo
      · rw [if_pos hspan, if_pos hspan]
      · rw [if_neg hspan, if_neg hspan]
        by_cases hfull : limit < h.region.size + n
        · rw [if_pos hfull, if_neg (by simpa using hfull)]
        · rw [if_neg hfull, if_pos (by simpa using hfull)]

/-- The free blocks that an audit sees are those of the plan. -/
theorem mem_free_surveyOf {b : ChainBlock} (hs : h.region.Holds ⟨h.lo, es, lists⟩) :
    (b ∈ (h.surveyOf es lists).chain.blocks ∧ b.isFree = true)
      ↔ (b.addr, ⟨b.tag.size, false⟩) ∈ located (h.lo + frameSize) es
        ∧ b = h.region.blockAt b.addr := by
  constructor
  · rintro ⟨hb, hfree⟩
    rcases List.mem_map.1 hb with ⟨⟨x, ⟨n, allocated⟩⟩, hx, rfl⟩
    rcases hs.chained.tagged.at hx with ⟨p, ht⟩
    rw [Region.isFree_blockAt, ht.allocated] at hfree
    obtain rfl : allocated = false := by simpa using hfree
    refine ⟨?_, rfl⟩
    rw [Region.tag_blockAt, ht.size]
    exact hx
  · rintro ⟨hx, hb⟩
    rcases hs.chained.tagged.at hx with ⟨p, ht⟩
    refine ⟨List.mem_map.2 ⟨_, hx, hb.symm⟩, ?_⟩
    rw [hb, Region.isFree_blockAt, ht.allocated]
    rfl

theorem blockAt_mem_surveyOf {x n : Nat} (hs : h.region.Holds ⟨h.lo, es, lists⟩)
    (hx : (x, ⟨n, false⟩) ∈ located (h.lo + frameSize) es) :
    h.region.blockAt x ∈ (h.surveyOf es lists).chain.blocks ∧ (h.region.blockAt x).isFree = true
      ∧ (h.region.blockAt x).tag.size = n := by
  rcases hs.chained.tagged.at hx with ⟨p, ht⟩
  have hsize : (h.region.blockAt x).tag.size = n := ht.size
  have hfree := (mem_free_surveyOf (b := h.region.blockAt x) hs).2 ⟨hsize.symm ▸ hx, rfl⟩
  exact ⟨hfree.1, hfree.2, hsize⟩

/-- A block that is large enough is free in the plan if an audit sees one. -/
theorem exists_free_surveyOf {need : Nat} (hs : h.region.Holds ⟨h.lo, es, lists⟩) :
    (∃ b ∈ (h.surveyOf es lists).chain.blocks, b.isFree = true ∧ need ≤ b.tag.size)
      ↔ ∃ x n, (x, ⟨n, false⟩) ∈ located (h.lo + frameSize) es ∧ need ≤ n := by
  constructor
  · rintro ⟨b, hb, hfree, hneed⟩
    exact ⟨b.addr, b.tag.size, ((mem_free_surveyOf hs).1 ⟨hb, hfree⟩).1, hneed⟩
  · rintro ⟨x, n, hx, hneed⟩
    rcases blockAt_mem_surveyOf hs hx with ⟨hb, hfree, hsize⟩
    exact ⟨h.region.blockAt x, hb, hfree, hsize.symm ▸ hneed⟩

/-- What the plan of a heap does for a request is the outcome that an audit tells. -/
theorem allocate_outcome (hs : h.region.Settled h.lo es lists)
    (hadmits : ∀ n, h.admits n = decide (n ≤ limit)) (hsize : 0 < size) :
    (∃ e, (h.surveyOf es lists).outcome limit h.config.growFloor size = .error e
        ∧ (h.planOf es lists).allocate h.config h.admits size = (h.planOf es lists, .error e, []))
      ∨ ∃ n q a events, (h.surveyOf es lists).outcome limit h.config.growFloor size = .ok n
        ∧ (h.planOf es lists).allocate h.config h.admits size = (q, .ok (some a), events)
        ∧ q.top = h.region.size + n := by
  rw [Survey.outcome, Plan.allocate, if_neg (Nat.ne_of_gt hsize)]
  cases hblock : (blockFor size).filter (· ≤ maxBlock) with
  | none => exact .inl ⟨_, rfl, rfl⟩
  | some need =>
      have hmin : minBlock ≤ max need h.config.growFloor :=
        Nat.le_trans (blockFor_eq_some hblock).1 (Nat.le_max_left _ _)
      simp only
      -- the audit asks whether there is a large enough block, and the plan which one is the first
      cases hfirst : (h.planOf es lists).firstFit need with
      | some a =>
          have hfree : ∃ b ∈ (h.surveyOf es lists).chain.blocks,
              b.isFree = true ∧ need ≤ b.tag.size := by
            have hsearch := (hs.holds.firstFit_planned need).trans (congrArg Except.ok hfirst)
            rcases hs.holds.firstFit_located hsearch with ⟨n, hn, hfit⟩
            exact (exists_free_surveyOf hs.holds).2 ⟨a, n, hn, hfit⟩
          rcases hplace : (h.planOf es lists).place a need with ⟨q, events⟩
          have htop := Plan.top_place (h.planOf es lists) a need
          rw [hplace, top_planOf hs] at htop
          refine .inr ⟨0, q, a, events, if_pos hfree, ?_, htop⟩
          simp only
          rw [hplace]
      | none =>
          have hfull : ¬∃ b ∈ (h.surveyOf es lists).chain.blocks,
              b.isFree = true ∧ need ≤ b.tag.size := by
            rw [exists_free_surveyOf hs.holds]
            rintro ⟨x, n, hx, hneed⟩
            exact Nat.not_le.2 (hs.holds.firstFit_eq_none_iff.1 hfirst x n hx) hneed
          rw [if_neg hfull, ← growth_surveyOf hs hadmits hmin]
          simp only
          cases hgrowth : (h.planOf es lists).growth h.admits (max need h.config.growFloor) with
          | error e => exact .inl ⟨e, rfl, rfl⟩
          | ok n =>
              have hpos : 0 < n := by
                have := (growthFor_eq_some (Plan.growth_eq_ok hgrowth)).1
                simp only [minBlock] at this
                omega
              rcases hgrow : (h.planOf es lists).grow n with ⟨q₁, a, events⟩
              rcases hplace : q₁.place a need with ⟨q, more⟩
              have htop := Plan.top_grow (h.planOf es lists) hpos
              have htop' := Plan.top_place q₁ a need
              rw [hgrow, top_planOf hs] at htop
              rw [hplace] at htop'
              refine .inr ⟨n, q, a, events ++ more, rfl, ?_, htop'.trans htop⟩
              simp only
              rw [hgrow]
              simp only
              rw [hplace]

/-- A request comes to what an audit tells. -/
theorem tryAllocate_outcome (hs : h.region.Settled h.lo es lists)
    (hadmits : ∀ n, h.admits n = decide (n ≤ limit)) (hsize : 0 < size) :
    (∃ e, (h.surveyOf es lists).outcome limit h.config.growFloor size = .error e
        ∧ h.tryAllocate size = .ok (h, .error e))
      ∨ ∃ n h' p, (h.surveyOf es lists).outcome limit h.config.growFloor size = .ok n
        ∧ h.tryAllocate size = .ok (h', .ok (some p))
        ∧ h'.region.size = h.region.size + n := by
  rcases tryAllocate_follows hs size with
    ⟨e, hrun, hplan⟩ | ⟨h', q, p, events, hrun, hplan, hf, -, -⟩
  · rcases allocate_outcome hs hadmits hsize with ⟨e', he, hplan'⟩ | ⟨n, q, a, events, -, hplan', -⟩
    · cases hplan.symm.trans hplan'
      exact .inl ⟨e, he, hrun⟩
    · cases hplan.symm.trans hplan'
  · rcases allocate_outcome hs hadmits hsize with
      ⟨e, -, hplan'⟩ | ⟨n, q, a, events, hn, hplan', htop⟩
    · cases hplan.symm.trans hplan'
    · cases hplan.symm.trans hplan'
      exact .inr ⟨n, h', a, hn, hrun, hf.size_eq.trans htop⟩

end Heap

/-! ## Calls -/

def Call.Asks : Call → Prop
  | .allocate _ => True
  | .tryAllocate _ => True
  | .allocateZeroed _ _ => True
  | .resize _ size => size ≠ 0
  | _ => False

/-- There is no pointer in the answer. -/
def Answer.Denies : Answer → Prop
  | .pointer p => p = none
  | .refused _ => True
  | .done => False

namespace Client

variable {source : Source} {config : Config} {c d : Client} {call : Call} {answer : Answer}

/-- A call that asks for memory and gets none leaves everything as it was. -/
theorem step_denied (hasks : call.Asks) (hstep : c.step call = .ok (d, answer))
    (hdenied : answer.Denies) : d.live = c.live ∧ c.heap.Unmoved d.heap := by
  cases call with
  | allocate size =>
      rcases Fault.bind_eq_ok.1 hstep with ⟨⟨h, p⟩, hrun, hd⟩
      cases hd
      obtain rfl : p = none := hdenied
      exact ⟨rfl, Heap.allocate_refused hrun⟩
  | tryAllocate size =>
      rcases Fault.bind_eq_ok.1 hstep with ⟨⟨h, granted⟩, hrun, hd⟩
      cases granted with
      | error e =>
          cases hd
          exact ⟨rfl, Heap.tryAllocate_refused hrun rfl ▸ .refl h⟩
      | ok p =>
          cases hd
          obtain rfl : p = none := hdenied
          exact ⟨rfl, Heap.tryAllocate_refused hrun rfl ▸ .refl h⟩
  | allocateZeroed count size =>
      rcases Fault.bind_eq_ok.1 hstep with ⟨⟨h, p⟩, hrun, hd⟩
      cases hd
      obtain rfl : p = none := hdenied
      exact ⟨rfl, Heap.allocateZeroed_refused hrun⟩
  | resize p size =>
      rcases Fault.bind_eq_ok.1 hstep with ⟨⟨h, q⟩, hrun, hd⟩
      cases hd
      obtain rfl : q = none := hdenied
      -- a payload that could not move is live where it was
      have hstays : ¬(size = 0 ∨ (none : Option Nat).isSome = true) := by
        rintro (hzero | hsome)
        · exact hasks hzero
        · cases hsome
      refine ⟨?_, Heap.resize_refused hasks hrun⟩
      show keep (if size = 0 ∨ _ then _ else c.live) none size = c.live
      rw [if_neg hstays]
      rfl
  | free p => cases hasks
  | write p start bytes => cases hasks

/-- In every state that a client reaches with a buffer, an audit tells what comes of a request: why
it is refused, and then the heap is as it was, or by how many bytes the heap grows. Whichever call
asks for memory comes through, and if it gets none then no bytes have changed, there are no new
events, and the same pointers are live. -/
theorem Reaches.requested (hc : Reaches source config c) (hkind : source.kind = .buffer)
    (hlimit : source.limit ≤ Source.maxBuffer) :
    ∃ s, c.heap.audit = .ok (.survey s)
      ∧ (∀ size e, 0 < size → s.outcome source.limit config.growFloor size = .error e →
          c.heap.tryAllocate size = .ok (c.heap, .error e))
      ∧ (∀ size n, 0 < size → s.outcome source.limit config.growFloor size = .ok n →
          ∃ h p, c.heap.tryAllocate size = .ok (h, .ok (some p))
            ∧ h.region.size = c.heap.region.size + n)
      ∧ ∀ call, c.Allows call → call.Asks → ∃ d answer, c.step call = .ok (d, answer)
          ∧ (answer.Denies → d.live = c.live ∧ c.heap.Unmoved d.heap) := by
  rcases hc.keeps with ⟨es, hk⟩
  rcases hk.settled with ⟨lists, hs⟩
  rcases hc.origin with ⟨rfl, hsource⟩
  have hadmits : ∀ n, c.heap.admits n = decide (n ≤ source.limit) := by
    intro n
    rw [hsource]
    exact decide_eq_decide.2 (Source.admits_buffer hkind hlimit n)
  refine ⟨_, Heap.audit_eq hs, fun size e hsize he => ?_, fun size n hsize hn => ?_,
    fun call ha hasks => ?_⟩
  · rcases Heap.tryAllocate_outcome hs hadmits hsize with ⟨e', he', hrun⟩ | ⟨n, h, p, hn, -⟩
    · cases he.symm.trans he'
      exact hrun
    · cases he.symm.trans hn
  · rcases Heap.tryAllocate_outcome hs hadmits hsize with ⟨e, he, -⟩ | ⟨m, h, p, hm, hrun, hgrown⟩
    · cases hn.symm.trans he
    · cases hn.symm.trans hm
      exact ⟨h, p, hrun, hgrown⟩
  · rcases step_spec hk ha with ⟨d, answer, es', hstep, -, -⟩
    exact ⟨d, answer, hstep, step_denied hasks hstep⟩

/-- A request that fits the free block, one for which the heap grows to its limit, and one that is
too large for that. -/
theorem requested_of_small_buffer :
    ∃ c, Reaches (.buffer 256) ⟨64, 64⟩ c ∧ c.live = [(128, 12)]
      ∧ (Source.buffer 256).kind = .buffer ∧ (Source.buffer 256).limit ≤ Source.maxBuffer
      ∧ (∃ h p, c.heap.tryAllocate 40 = .ok (h, .ok (some p))
          ∧ h.region.size = c.heap.region.size + 0)
      ∧ (∃ h p, c.heap.tryAllocate 60 = .ok (h, .ok (some p))
          ∧ h.region.size = c.heap.region.size + 64)
      ∧ c.heap.tryAllocate 61 = .ok (c.heap, .error (.outOfMemory 72)) := by
  have hrun : (runFrom (.buffer 256) ⟨64, 64⟩ [.allocate 12]).map (fun c => (c.live,
      c.heap.survey?.map fun s => [40, 60, 61].map (s.outcome 256 64)))
      = some ([(128, 12)], some [.ok 0, .ok 64, .error (.outOfMemory 72)]) := by
    decide +kernel
  rcases Option.map_eq_some_iff.1 hrun with ⟨c, hrun, hc⟩
  have hreach := reaches_iff.2 ⟨_, hrun⟩
  rcases Prod.mk.inj hc with ⟨hlive, hout⟩
  have hlimit : (Source.buffer 256).limit ≤ Source.maxBuffer := by decide
  rcases hreach.requested rfl hlimit with ⟨s, ha, hrefused, hgranted, -⟩
  rw [Heap.survey?_eq ha] at hout
  have hout := Option.some.inj hout
  simp only [List.map_cons, List.cons.injEq] at hout
  rcases hout with ⟨h40, h60, h61, -⟩
  exact ⟨c, hreach, hlive, rfl, hlimit, hgranted 40 0 (by decide) h40,
    hgranted 60 64 (by decide) h60, hrefused 61 _ (by decide) h61⟩

end Client

end BoundaryTag
