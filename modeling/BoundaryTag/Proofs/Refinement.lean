import BoundaryTag.Proofs.ClientInvariant

/-!
# Refinement — heaps do what their plans say

The bytes of a heap carry out a plan: which blocks there are, which of them are free, and in which
order the free ones of a class are tried. As long as calls play by the rules, the plan alone tells
what a heap returns and what it notes.

* `Client.perform_follows`: a run by the rules comes through as the plan says.
* `Client.refines_plan`: so does any run from a new heap, whose plan is one free block. Such runs
  lead to all states that a client reaches (`Client.reaches_iff`, `Client.run_eq_some_iff`).
-/

namespace BoundaryTag

namespace Client

variable {c : Client} {p : Plan}

/-- From a heap that follows a plan, a run by the rules comes through as the plan says. -/
theorem perform_follows (hlo : p.lo = c.heap.lo)
    (hs : c.heap.region.Settled c.heap.lo p.extents p.lists) (hk : c.Keeps p.extents)
    {calls : List Call} (hplays : c.Plays calls) :
    ∃ q answers events d, p.run c.heap.config c.heap.admits calls = (q, answers, events)
      ∧ c.perform calls = .ok (d, answers) ∧ c.heap.Follows d.heap q events := by
  have hp : c.heap.planOf p.extents p.lists = p := by rw [Heap.planOf, ← hlo]
  induction calls generalizing c p with
  | nil => exact ⟨p, [], [], c, rfl, rfl, hp ▸ .refl hs⟩
  | cons call calls ih =>
      rcases hplays with ⟨hallows, hrest⟩
      rcases step_follows hs hk hallows with ⟨d, answer, q, events, hstep, hplan, hf, hk', -⟩
      rw [hp] at hplan
      -- the rest of the run begins with the plan that the step leads to
      have hlo' : q.lo = d.heap.lo := hf.start.trans hf.lo.symm
      have hs' : d.heap.region.Settled d.heap.lo q.extents q.lists := hf.lo.symm ▸ hf.settled
      rcases ih hlo' hs' hk' (hrest d answer hstep) (by rw [Heap.planOf, ← hlo']) with
        ⟨q', answers, more, d', hrun, hperform, hf'⟩
      rw [hf.config, hf.admits] at hrun
      refine ⟨q', answer :: answers, events ++ more, d', ?_, ?_, hf.trans hf'⟩
      · rw [Plan.run, hplan]
        simp only
        rw [hrun]
      · exact perform_cons hstep hperform

/-- Laying out a heap comes through, and from a new heap on every run by the rules does. Such a heap
holds the plan of one free block. In a run, the plan returns what the heap returns and notes what
the heap notes, and in the end the bytes of the heap are those of the plan. -/
theorem refines_plan (source : Source) (config : Config) :
    ∃ result, Heap.layOut source config = .ok result ∧ ∀ h, result = .ok h →
      ∃ n, growthFor config.initialChunk = some n ∧ h.region.Holds (Plan.fresh h.lo n)
        ∧ ∀ calls, Plays ⟨h, []⟩ calls →
          ∃ p answers events d, (Plan.fresh h.lo n).run config
              (fun size => decide (source.Admits size)) calls = (p, answers, events)
            ∧ perform ⟨h, []⟩ calls = .ok (d, answers)
            ∧ p.lo = d.heap.lo ∧ d.heap.region.Holds p
            ∧ d.heap.events = h.events ++ events := by
  rcases Heap.layOut_spec source config with
    ⟨e, he⟩ | ⟨h, es, lists, hrun, hs, huse, hconfig, hadmits, n, hn, hfresh⟩
  · exact ⟨_, he, nofun⟩
  · refine ⟨_, hrun, fun h' hh => ?_⟩
    cases hh
    have hs' : h.region.Settled h.lo (h.planOf es lists).extents (h.planOf es lists).lists := hs
    have huse' : h.used (h.planOf es lists).extents = [] := huse
    rw [hfresh] at hs' huse'
    refine ⟨n, hn, hs'.holds, fun calls hplays => ?_⟩
    rcases perform_follows (c := ⟨h, []⟩) rfl hs' (keeps_nil hs' huse') hplays with
      ⟨p, answers, events, d, hplan, hperform, hf⟩
    rw [hconfig, hadmits] at hplan
    have hholds := hf.settled.holds
    rw [← hf.start] at hholds
    exact ⟨p, answers, events, d, hplan, hperform, hf.start.trans hf.lo.symm, hholds, hf.events⟩

/-- The block that was freed is too small for the payload that moves, and the last request but one
takes it. -/
theorem refines_plan_in_tight_buffer :
    ∃ h p events d, Heap.layOut (Source.buffer 256) ⟨64, 64⟩ = .ok (.ok h)
      ∧ h.region.Holds (Plan.fresh h.lo 64)
      ∧ let calls := [.allocate 12, .allocate 12, .free (some 128), .resize (some 144) 40,
          .allocate 12, .tryAllocate 100]
        let answers := [.pointer (some 128), .pointer (some 144), .done, .pointer (some 160),
          .pointer (some 128), .refused (.outOfMemory 104)]
        Plays ⟨h, []⟩ calls
        ∧ (Plan.fresh h.lo 64).run ⟨64, 64⟩
            (fun size => decide ((Source.buffer 256).Admits size)) calls = (p, answers, events)
        ∧ perform ⟨h, []⟩ calls = .ok (d, answers)
        ∧ p.lo = d.heap.lo ∧ d.heap.region.Holds p ∧ d.heap.events = h.events ++ events := by
  have hrun : (runFrom (.buffer 256) ⟨64, 64⟩ [.allocate 12, .allocate 12, .free (some 128),
      .resize (some 144) 40, .allocate 12, .tryAllocate 100]).isSome := by
    decide +kernel
  have hplace : ((Heap.layOut (Source.buffer 256) ⟨64, 64⟩).toOption.bind
      Except.toOption).map Heap.lo = some 0 := by
    decide +kernel
  have hanswers : ((Plan.fresh 0 64).run ⟨64, 64⟩
      (fun size => decide ((Source.buffer 256).Admits size))
      [.allocate 12, .allocate 12, .free (some 128), .resize (some 144) 40, .allocate 12,
        .tryAllocate 100]).2.1
      = [.pointer (some 128), .pointer (some 144), .done, .pointer (some 160), .pointer (some 128),
        .refused (.outOfMemory 104)] := by
    decide
  rcases Option.isSome_iff_exists.1 hrun with ⟨c, hrun⟩
  rcases runFrom_eq_some_iff.1 hrun with ⟨h, hlay, hplays, -⟩
  rw [hlay] at hplace
  have hzero : h.lo = 0 := Option.some.inj hplace
  rcases refines_plan (.buffer 256) ⟨64, 64⟩ with ⟨result, hresult, hall⟩
  cases hresult.symm.trans hlay
  rcases hall h rfl with ⟨n, hn, hholds, hruns⟩
  obtain rfl : n = 64 := Option.some.inj (hn.symm.trans (by decide : growthFor 64 = some 64))
  rcases hruns _ hplays with ⟨p, answers, events, d, hplan, hperform, hlo, hend, hevents⟩
  rw [← hzero, hplan] at hanswers
  cases hanswers
  exact ⟨h, p, events, d, hlay, hholds, hplays, hplan, hperform, hlo, hend, hevents⟩

end Client

end BoundaryTag
