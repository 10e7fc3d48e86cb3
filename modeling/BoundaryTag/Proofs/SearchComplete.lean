import BoundaryTag.Proofs.Requests
import BoundaryTag.Proofs.Search
import BoundaryTag.Proofs.RegionLength

/-!
# SearchComplete — a search of the lists is a search of the heap

In a heap that passes its check the lists hold all free blocks, each in the list of its class. So
the search for a block misses none, although it looks at a part of the lists only.

* `Heap.firstFit_serves`: the block that is found is the first of its list and of the lowest class
  that has one.
* `Heap.firstFit_misses_iff`: there is none exactly if no free block of the chain is large enough.
* `Heap.firstFit_complete` puts them together, with what follows for the growth of a heap.
-/

namespace BoundaryTag

open Extent

namespace Heap

variable {h : Heap} {es : List Extent} {lists : Nat → List Nat} {need a : Nat}

theorem firstFit_serves (hs : h.region.Holds ⟨h.lo, es, lists⟩)
    (hfound : h.lists.firstFit h.region need = .ok (some a)) :
    (h.surveyOf es lists).Serves need a := by
  rcases hs.firstFit_spec hfound with ⟨k, l₁, l₂, hneed, hk, hlist, hfit, hbefore, hlower⟩
  have hthread : h.lists.threadAt h.region lists k ∈ (h.surveyOf es lists).threads :=
    List.mem_map.2 ⟨k, List.mem_range.2 hk, rfl⟩
  have hnodes : (h.lists.threadAt h.region lists k).nodes
      = l₁.map (h.lists.nodeAt h.region) ++ h.lists.nodeAt h.region a
        :: l₂.map (h.lists.nodeAt h.region) := by
    rw [FreeLists.threadAt, hlist, List.map_append, List.map_cons]
  refine ⟨_, hthread, _, _, _, hnodes, rfl, hfit, hneed, ?_, ?_, ?_⟩
  · intro m hm
    rcases List.mem_map.1 hm with ⟨y, hy, rfl⟩
    exact hbefore y hy
  · intro u hu hlow m hm
    rcases List.mem_map.1 hu with ⟨j, -, rfl⟩
    rcases List.mem_map.1 hm with ⟨y, hy, rfl⟩
    exact hlower j hlow y hy
  · intro b hb hfree hlow
    rcases List.mem_map.1 hb with ⟨⟨x, ⟨n, allocated⟩⟩, hx, rfl⟩
    rcases hs.chained.tagged.at hx with ⟨p, ht⟩
    rw [Region.isFree_blockAt, ht.allocated] at hfree
    rw [Region.tag_blockAt, ht.size] at hlow ⊢
    obtain rfl : allocated = false := by simpa using hfree
    -- the block is in the list of its class, which is a lower one
    have hmem : x ∈ lists (SizeClass.of n) := (hs.listed _ x).2 ⟨by omega, n, hx, rfl⟩
    have hsmall := hlower _ hlow x hmem
    rwa [ht.size] at hsmall

theorem firstFit_misses_iff (hs : h.region.Holds ⟨h.lo, es, lists⟩) :
    h.lists.firstFit h.region need = .ok none
      ↔ ∀ b ∈ (h.surveyOf es lists).chain.blocks, b.isFree = true → b.tag.size < need := by
  have hplan : h.lists.firstFit h.region need = .ok ((h.planOf es lists).firstFit need) :=
    hs.firstFit_planned need
  rw [hplan, Except.ok.injEq]
  constructor
  · intro hnone b hb hfree
    apply Nat.lt_of_not_le
    intro hfit
    rcases (exists_free_surveyOf hs).1 ⟨b, hb, hfree, hfit⟩ with ⟨x, n, hx, hn⟩
    exact Nat.not_le.2 (hs.firstFit_eq_none_iff.1 hnone x n hx) hn
  · intro hsmall
    refine hs.firstFit_eq_none_iff.2 fun x n hx => ?_
    apply Nat.lt_of_not_le
    intro hfit
    rcases (exists_free_surveyOf hs).2 ⟨x, n, hx, hfit⟩ with ⟨b, hb, hfree, hn⟩
    exact Nat.not_le.2 (hsmall b hb hfree) hn

/-- In every heap that passes its check a search ends. It finds nothing exactly if no free block of
the chain is large enough, and otherwise the first block that is, in the lowest class that has one.
So a call makes the region longer only if no free block of the chain is large enough for it. -/
theorem firstFit_complete (hc : h.check = .ok []) :
    ∃ s, h.audit = .ok (.survey s)
      ∧ (∀ need, ∃ answer, h.lists.firstFit h.region need = .ok answer
          ∧ (answer = none ↔ ∀ b ∈ s.chain.blocks, b.isFree = true → b.tag.size < need)
          ∧ ∀ a, answer = some a → s.Serves need a)
      ∧ ∀ live call d answer, (⟨h, live⟩ : Client).step call = .ok (d, answer) →
          h.region.size < d.heap.region.size → ∃ need, call.room = some need
            ∧ ∀ b ∈ s.chain.blocks, b.isFree = true → b.tag.size < need := by
  rcases holds_of_check hc with ⟨es, lists, hs⟩
  refine ⟨_, audit_of_holds hs, fun need => ?_, fun live call d answer hstep hlonger => ?_⟩
  · have hsearch := hs.firstFit_eq need
    refine ⟨_, hsearch, ?_, ?_⟩
    · rw [← firstFit_misses_iff hs, ← Except.ok.injEq]
      exact ⟨hsearch.trans, hsearch.symm.trans⟩
    · intro a ha
      exact firstFit_serves hs (hsearch.trans (congrArg Except.ok ha))
  · rcases Client.step_grows hstep with hsame | ⟨need, hroom, hnone⟩
    · exact absurd hlonger (Nat.not_lt.2 (Nat.le_of_eq hsame))
    · exact ⟨need, hroom, (firstFit_misses_iff hs).1 hnone⟩

end Heap

/-- A heap in use with free blocks of 24, 32 and 40 bytes, where the block of 40 bytes is the second
of its list. -/
theorem Client.firstFit_complete_of_three :
    ∃ c, Reaches (.buffer 4096) ⟨64, 64⟩ c ∧ c.heap.check = .ok []
      ∧ ∃ s, c.heap.audit = .ok (.survey s) ∧ s.members 2 = [168, 216]
        ∧ s.Serves 24 128 ∧ s.Serves 32 168 ∧ s.Serves 40 216
        ∧ ∀ b ∈ s.chain.blocks, b.isFree = true → b.tag.size < 48 := by
  have hrun : (runFrom (.buffer 4096) ⟨64, 64⟩ [.allocate 20, .allocate 12, .allocate 28,
      .allocate 12, .free (some 128), .free (some 168)]).map (fun c => (c.heap.check.toOption,
        [24, 32, 40, 48].map fun need => (c.heap.lists.firstFit c.heap.region need).toOption,
        c.heap.survey?.map fun s => s.members 2)) = some (some [],
          [some (some 128), some (some 168), some (some 216), some none], some [168, 216]) := by
    decide +kernel
  rcases Option.map_eq_some_iff.1 hrun with ⟨c, hrun, hc⟩
  rcases Prod.mk.inj hc with ⟨hcheck, hc⟩
  rcases Prod.mk.inj hc with ⟨hfound, hmembers⟩
  have hcheck := Fault.toOption_eq_some.1 hcheck
  rcases Heap.firstFit_complete hcheck with ⟨s, haudit, hsearch, -⟩
  rw [Heap.survey?_eq haudit] at hmembers
  have hmembers := Option.some.inj hmembers
  simp only [List.map_cons, List.cons.injEq, Fault.toOption_eq_some] at hfound
  rcases hfound with ⟨h24, h32, h40, h48, -⟩
  -- what was computed is the answer that the theorem is about
  have hserves : ∀ need a, c.heap.lists.firstFit c.heap.region need = .ok (some a) →
      s.Serves need a := by
    intro need a hfirst
    rcases hsearch need with ⟨answer, hanswer, -, hserves⟩
    exact hserves a (Except.ok.inj (hanswer.symm.trans hfirst))
  rcases hsearch 48 with ⟨answer, hanswer, hnone, -⟩
  exact ⟨c, reaches_iff.2 ⟨_, hrun⟩, hcheck, s, haudit, hmembers, hserves 24 128 h24,
    hserves 32 168 h32, hserves 40 216 h40, hnone.1 (Except.ok.inj (hanswer.symm.trans h48))⟩

end BoundaryTag
