import BoundaryTag.Proofs.EmptyReports
import BoundaryTag.Proofs.ClientInvariant
import BoundaryTag.Proofs.PlanSteps

/-!
# FreedInAnyOrder — freeing live pointers in any order

Freeing some of the live pointers leads to the same blocks in whichever order it is done: to the old
chain with those blocks free and neighbours joined.

* `Chained.outline_eq`: the headers of a chain say what its extents are.
* `Plan.step_ne_nil`: a heap always has a block.
* `Client.frees_follow`: what freeing one pointer after the other comes to.
* `Client.Reaches.freed_in_any_order`: two orders lead to the same chain, to the same members of
  every list, and to one free block if nothing is left in use.
-/

namespace BoundaryTag

open Extent

/-! ## Outlines -/

namespace Region

variable {r : Region} {bp : Nat} {p : Bool} {es : List Extent}

theorem map_snd_located (a : Nat) (es : List Extent) : (located a es).map Prod.snd = es := by
  induction es generalizing a with
  | nil => rfl
  | cons e es ih => rw [located, List.map_cons, ih]

/-- The headers of a chain say what its extents are. -/
theorem Chained.outline_eq (h : r.Chained bp p es) :
    Chain.outline ⟨r.blocksAt bp es, .epilogue r.size (r.tagAt r.size)⟩
      = Extent.outline p bp es := by
  induction es generalizing bp p with
  | nil =>
      have hend : r.Ended bp p := h.ended
      rcases hend with ⟨rfl, hsize, halloc, hprev⟩
      show [(r.tagAt r.size).outline r.size] = _
      rw [Tag.outline, hsize, halloc, hprev]
      rfl
  | cons e es ih =>
      have ht := h.tagged.1
      have hrest := ih h.tail
      show (r.tagAt bp).outline bp :: Chain.outline ⟨r.blocksAt (bp + e.size) es, _⟩ = _
      rw [hrest, Tag.outline, ht.size, ht.allocated, ht.prevFree]
      rfl

theorem Chained.located_eq {stop : ChainEnd} (h : r.Chained bp p es) :
    Chain.located ⟨r.blocksAt bp es, stop⟩ = located bp es := by
  induction es generalizing bp p with
  | nil => rfl
  | cons e es ih =>
      have ht := h.tagged.1
      have hrest := ih h.tail
      show (bp, ⟨(r.tagAt bp).size, (r.tagAt bp).allocated⟩)
        :: Chain.located ⟨r.blocksAt (bp + e.size) es, stop⟩ = _
      rw [hrest, ht.size, ht.allocated]
      rfl

theorem Chained.extents_eq {stop : ChainEnd} (h : r.Chained bp p es) :
    Chain.extents ⟨r.blocksAt bp es, stop⟩ = es := by
  rw [Chain.extents, h.located_eq, map_snd_located]

end Region

namespace Heap

variable {h : Heap} {es : List Extent} {lists : Nat → List Nat}

theorem outline_surveyOf (hs : h.region.Settled h.lo es lists) :
    (h.surveyOf es lists).chain.outline = Extent.outline false (h.lo + frameSize) es :=
  hs.drawn.chained.outline_eq

theorem members_surveyOf (index : Nat) : (h.surveyOf es lists).members index
    = if index < SizeClass.count then lists index else [] := by
  have hthreads : (h.surveyOf es lists).threads[index]?
      = ((List.range SizeClass.count)[index]?).map (h.lists.threadAt h.region lists) :=
    List.getElem?_map ..
  by_cases hindex : index < SizeClass.count
  · rw [Survey.members, hthreads, List.getElem?_range hindex, if_pos hindex]
    show ((lists index).map _).map _ = _
    rw [List.map_map]
    exact List.map_id _
  · rw [Survey.members, hthreads, List.getElem?_eq_none (by rw [List.length_range]; omega),
      if_neg hindex]
    rfl

/-- The lists of two heaps with the same blocks have the same members. -/
theorem members_perm {k : Heap} {lists' : Nat → List Nat} (hlo : k.lo = h.lo)
    (hs : h.region.Settled h.lo es lists) (hs' : k.region.Settled k.lo es lists') (index : Nat) :
    ((k.surveyOf es lists').members index).Perm ((h.surveyOf es lists).members index) := by
  rw [members_surveyOf, members_surveyOf]
  split
  · refine (List.perm_ext_iff_of_nodup (hs'.holds.once index) (hs.holds.once index)).2 fun a => ?_
    rw [hs.listed index a, hs'.listed index a, hlo]
  · exact .refl []

end Heap

/-! ## A heap has a block -/

namespace Plan

variable {p : Plan} (config : Config) (admits : Nat → Bool)

theorem replaceAt_ne_nil {x a : Nat} {new es : List Extent} (hnew : new ≠ []) (h : es ≠ []) :
    replaceAt x new a es ≠ [] := by
  cases es with
  | nil => exact absurd rfl h
  | cons e es =>
      rw [replaceAt]
      split
      · exact List.append_ne_nil_of_left_ne_nil hnew _
      · exact List.cons_ne_nil _ _

theorem settle_ne_nil {es : List Extent} {x n : Nat} (hp : p.extents ≠ []) (h : es ≠ []) :
    (p.settle es x n).1.extents ≠ [] := by
  unfold settle
  dsimp only
  split
  · exact hp
  · exact merge_ne_nil h

theorem place_ne_nil {a need : Nat} (hp : p.extents ≠ []) : (p.place a need).1.extents ≠ [] := by
  unfold place
  dsimp only
  split
  · exact replaceAt_ne_nil (List.cons_ne_nil _ _) hp
  · exact replaceAt_ne_nil (List.cons_ne_nil _ _) hp

theorem grow_ne_nil {n : Nat} (hp : p.extents ≠ []) : (p.grow n).1.extents ≠ [] :=
  settle_ne_nil hp (List.append_ne_nil_of_left_ne_nil hp _)

theorem free_ne_nil {a : Nat} (hp : p.extents ≠ []) : (p.free a).1.extents ≠ [] :=
  settle_ne_nil hp (replaceAt_ne_nil (List.cons_ne_nil _ _) hp)

/-- No step takes the last block away. -/
theorem step_ne_nil (call : Call) (hp : p.extents ≠ []) :
    (p.step config admits call).1.extents ≠ [] :=
  step_keeps (P := fun q => q.extents ≠ []) config admits (fun _ _ _ => place_ne_nil)
    (fun _ _ => grow_ne_nil) (fun _ _ => free_ne_nil) call hp

end Plan

/-! ## Freeing -/

namespace Client

variable {source : Source} {config : Config} {c : Client} {es : List Extent} {ps qs : List Nat}

/-- A state that a client reaches has a block. -/
theorem Reaches.keeps_some (hc : Reaches source config c) : ∃ es, c.Keeps es ∧ es ≠ [] := by
  induction hc with
  | @start h laidOut =>
      rcases Heap.layOut_follows source config with
        ⟨lo, -, ⟨e, he⟩ | ⟨k, n, hrun, -, rfl, -, -, -, -, hs⟩⟩
      · cases he.symm.trans laidOut
      · cases hrun.symm.trans laidOut
        exact ⟨_, keeps_nil hs rfl, List.cons_ne_nil _ _⟩
  | @step c d call answer _ allowed done ih =>
      rcases ih with ⟨es, hk, hne⟩
      rcases hk.settled with ⟨lists, hs⟩
      rcases step_follows hs hk allowed with ⟨d', answer', q, events, hrun, hplan, -, hk', -⟩
      cases hrun.symm.trans done
      have hq := Plan.step_ne_nil c.heap.config c.heap.admits (p := c.heap.planOf es lists) call hne
      rw [hplan] at hq
      exact ⟨q.extents, hk', hq⟩

def frees (ps : List Nat) : List Call := ps.map fun p => .free (some p)

theorem mem_pointers_forget {live : List (Nat × Nat)} {p q : Nat} (hne : q ≠ p)
    (hq : q ∈ live.map Prod.fst) : q ∈ (forget live (some p)).map Prod.fst := by
  rcases List.mem_map.1 hq with ⟨⟨x, size⟩, hx, rfl⟩
  refine List.mem_map.2 ⟨(x, size), List.mem_filter.2 ⟨hx, ?_⟩, rfl⟩
  simpa using hne

/-- A live pointer is freed: its block becomes free, and neighbours are joined. -/
theorem free_step {p : Nat} (hk : c.Keeps es) (hp : p ∈ c.pointers) :
    ∃ d, c.step (.free (some p)) = .ok (d, .done) ∧ d.heap.lo = c.heap.lo
      ∧ d.live = forget c.live (some p)
      ∧ d.Keeps (merge (vacate [p] (c.heap.lo + frameSize) es)) := by
  have hallows : c.Allows (.free (some p)) := owns_of_mem hp
  rcases hk.settled with ⟨lists, hs⟩
  rcases releasable hk hallows p rfl with ⟨n, hn⟩
  rcases step_follows hs hk hallows with ⟨d, answer, q, events, hstep, hplan, hf, hk', -⟩
  have hextents : ((c.heap.planOf es lists).free p).1.extents
      = merge (vacate [p] (c.heap.lo + frameSize) es) :=
    Plan.extents_free hs.tidy hs.large (mem_inUse.1 hn)
  cases hplan
  rw [step] at hstep
  rcases Fault.bind_eq_ok.1 hstep with ⟨h, hfree, hd⟩
  cases hd
  refine ⟨_, ?_, hf.lo, rfl, hextents ▸ hk'⟩
  rw [step, hfree, Fault.ok_bind]
  rfl

/-- Live pointers are freed: their blocks become free, and neighbours are joined. -/
theorem frees_follow (hk : c.Keeps es) (hnd : ps.Nodup) (hlive : ∀ p ∈ ps, p ∈ c.pointers) :
    ∃ d, c.perform (frees ps) = .ok (d, ps.map fun _ => .done) ∧ d.heap.lo = c.heap.lo
      ∧ d.Keeps (merge (vacate ps (c.heap.lo + frameSize) es)) := by
  induction ps generalizing c es with
  | nil =>
      rcases hk.settled with ⟨lists, hs⟩
      refine ⟨c, rfl, rfl, ?_⟩
      rw [vacate_eq_self (by simp), merge_of_tidy hs.tidy]
      exact hk
  | cons p ps ih =>
      rcases List.nodup_cons.1 hnd with ⟨hp, hnd⟩
      rcases free_step hk (hlive p List.mem_cons_self) with ⟨d, hstep, hlo, hlive', hk'⟩
      have hstill : ∀ q ∈ ps, q ∈ d.pointers := by
        intro q hq
        rw [pointers, hlive']
        exact mem_pointers_forget (fun heq => hp (heq ▸ hq)) (hlive q (List.mem_cons_of_mem _ hq))
      rcases ih hk' hnd hstill with ⟨e, hrest, hlo', hk''⟩
      rw [hlo, merge_vacate_merge, vacate_vacate] at hk''
      exact ⟨e, perform_cons hstep hrest, hlo'.trans hlo, hk''⟩

/-- Free some of the live pointers, in two orders. Both come to the same chain, which is the old one
with those blocks free and neighbours joined, and to the same members of every list. If nothing is
left in use, this is one free block that fills the heap. -/
theorem Reaches.freed_in_any_order (hc : Reaches source config c) (hnd : ps.Nodup)
    (hlive : ∀ p ∈ ps, p ∈ c.pointers) (hperm : qs.Perm ps) :
    ∃ s d e t u, c.heap.audit = .ok (.survey s)
      ∧ c.perform (frees ps) = .ok (d, ps.map fun _ => .done)
      ∧ c.perform (frees qs) = .ok (e, qs.map fun _ => .done)
      ∧ d.heap.audit = .ok (.survey t) ∧ e.heap.audit = .ok (.survey u)
      ∧ t.chain.outline = Extent.outline false (c.heap.lo + frameSize)
          (merge (vacate ps (c.heap.lo + frameSize) s.chain.extents))
      ∧ u.chain.outline = t.chain.outline
      ∧ (∀ index, (u.members index).Perm (t.members index))
      ∧ (ps.Perm c.pointers → t.chain.outline
          = [⟨c.heap.lo + frameSize, c.heap.region.size - c.heap.lo - frameSize, false, false⟩,
            ⟨c.heap.region.size, 0, true, true⟩]) := by
  rcases hc.keeps_some with ⟨es, hk, hne⟩
  rcases hk.settled with ⟨lists, hs⟩
  have hlive' : ∀ p ∈ qs, p ∈ c.pointers := fun p hp => hlive p (hperm.mem_iff.1 hp)
  rcases frees_follow hk hnd hlive with ⟨d, hd, hlo, hkd⟩
  rcases frees_follow hk (hperm.nodup_iff.2 hnd) hlive' with ⟨e, he, hlo', hke⟩
  -- the same blocks become free in both orders
  rw [vacate_congr fun x => hperm.mem_iff] at hke
  rcases hkd.settled with ⟨listsd, hsd⟩
  rcases hke.settled with ⟨listse, hse⟩
  have hextents : (c.heap.surveyOf es lists).chain.extents = es := hs.drawn.chained.extents_eq
  have ht := Heap.outline_surveyOf hsd
  have hu := Heap.outline_surveyOf hse
  rw [hlo] at ht
  rw [hlo'] at hu
  refine ⟨_, d, e, _, _, Heap.audit_eq hs, hd, he, Heap.audit_eq hsd, Heap.audit_eq hse, ?_,
    hu.trans ht.symm, Heap.members_perm (hlo'.trans hlo.symm) hsd hse, fun hall => ?_⟩
  · rw [hextents]
    exact ht
  · -- no block is in use, so they have all become one
    have hmem : ∀ x n, (x, ⟨n, true⟩) ∈ located (c.heap.lo + frameSize) es → x ∈ ps := fun x n hx =>
      hall.mem_iff.2 (hk.live.perm.mem_iff.2 (List.mem_map.2 ⟨(x, n), mem_inUse.2 hx, rfl⟩))
    have hle := le_stop (c.heap.lo + frameSize) es
    rw [ht, merge_vacate_all hne hmem, Extent.outline, Extent.outline, Nat.add_sub_of_le hle,
      hs.drawn.stop_eq, Nat.sub_add_eq]
    rfl

/-- Three blocks, freed from the first to the last, and the one in the middle last. -/
theorem freed_in_two_orders :
    ∃ c, Reaches (.buffer 4096) ⟨64, 64⟩ c ∧ c.live = [(160, 12), (144, 12), (128, 12)]
      ∧ ∃ d e t u, c.perform [.free (some 128), .free (some 144), .free (some 160)]
          = .ok (d, [.done, .done, .done])
        ∧ c.perform [.free (some 128), .free (some 160), .free (some 144)]
          = .ok (e, [.done, .done, .done])
        ∧ d.heap.audit = .ok (.survey t) ∧ e.heap.audit = .ok (.survey u)
        ∧ t.chain.outline
          = [⟨c.heap.lo + 128, c.heap.region.size - c.heap.lo - 128, false, false⟩,
            ⟨c.heap.region.size, 0, true, true⟩]
        ∧ u.chain.outline = t.chain.outline := by
  have hlive : (runFrom (.buffer 4096) ⟨64, 64⟩ [.allocate 12, .allocate 12, .allocate 12]).map
      Client.live = some [(160, 12), (144, 12), (128, 12)] := by
    decide +kernel
  rcases Option.map_eq_some_iff.1 hlive with ⟨c, hrun, hc⟩
  have hreach := reaches_iff.2 ⟨_, hrun⟩
  have hpointers : c.pointers = [160, 144, 128] := by
    rw [pointers, hc]
    rfl
  have howned : ∀ p ∈ [128, 144, 160], p ∈ c.pointers := by
    rw [hpointers]
    decide
  have hperm : [128, 160, 144].Perm [128, 144, 160] := by decide
  rcases hreach.freed_in_any_order (by decide) howned hperm with
    ⟨s, d, e, t, u, -, hd, he, ht, hu, -, hsame, -, hall⟩
  exact ⟨c, hreach, hc, d, e, t, u, hd, he, ht, hu, hall (by rw [hpointers]; decide), hsame⟩

end Client

end BoundaryTag
