import BoundaryTag.Heap.Layout
import BoundaryTag.Proofs.EmptyReports

/-!
# CheckVerdict — what the check says about any bytes

The check is made for heaps that may be damaged in any way: nothing is known about their bytes.

* `Heap.check_decides`: it finds no broken rule exactly when the bytes are those of a plan, and only
  then a heap is valid (`Heap.validate_eq_none_iff`).
* `Heap.audit_survives`: it comes through, and each of its two walks ends for a reason that holds of
  any bytes. The one over headers gets further up with every block (`Walk.length_le`), and the one
  along links goes nowhere twice, through all lists together (`Trails.nodes_nodup`).
-/

namespace BoundaryTag

/-! ## How far the walks go -/

/-- A region has room for so many blocks. -/
theorem Region.Walk.length_le {r : Region} {bp : Nat} {c : Chain} (h : r.Walk bp c) :
    8 * c.blocks.length ≤ r.size - bp := by
  induction h with
  | outside past => exact Nat.zero_le _
  | epilogue inside empty => exact Nat.zero_le _
  | overrun inside nonempty past => exact Nat.zero_le _
  | block step inside more ih =>
      rw [List.length_cons]
      omega

namespace FreeLists

variable {l : FreeLists} {r : Region} {lo : Nat} {visited classes : List Nat} {cursor : Option Nat}
  {nodes : List ThreadNode} {stop : ThreadEnd} {ts : List Thread}

theorem Trail.new (h : l.Trail r lo visited cursor nodes stop) :
    ∀ n ∈ nodes, n.addr ∉ visited ∧ lo + 8 ≤ n.addr ∧ n.addr + 8 ≤ r.size := by
  induction h with
  | done => intro n hn; cases hn
  | outside out => intro n hn; cases hn
  | again inside seen => intro n hn; cases hn
  | @node visited a nodes stop inside new more ih =>
      intro n hn
      rcases List.mem_cons.1 hn with rfl | hn
      · exact ⟨new, inside⟩
      · rcases ih n hn with ⟨hvis, hin⟩
        exact ⟨fun hv => hvis (List.mem_cons_of_mem a hv), hin⟩

theorem Trail.nodup (h : l.Trail r lo visited cursor nodes stop) :
    (nodes.map ThreadNode.addr).Nodup := by
  induction h with
  | done => exact List.nodup_nil
  | outside out => exact List.nodup_nil
  | again inside seen => exact List.nodup_nil
  | @node visited a nodes stop inside new more ih =>
      rw [List.map_cons]
      refine List.nodup_cons.2 ⟨?_, ih⟩
      -- the block counts as visited for the rest of the trail
      intro ha
      rcases List.mem_map.1 ha with ⟨n, hn, hna⟩
      have hvis : n.addr ∉ a :: visited := (more.new n hn).1
      apply hvis
      rw [hna]
      exact List.mem_cons_self

theorem Trails.new (h : l.Trails r lo visited classes ts) :
    ∀ n ∈ ts.flatMap Thread.nodes, n.addr ∉ visited ∧ lo + 8 ≤ n.addr ∧ n.addr + 8 ≤ r.size := by
  induction h with
  | nil => intro n hn; cases hn
  | @cons visited k classes nodes stop rest trail more ih =>
      intro n hn
      rw [List.flatMap_cons] at hn
      rcases List.mem_append.1 hn with hn | hn
      · exact trail.new n hn
      · rcases ih n hn with ⟨hvis, hin⟩
        exact ⟨fun hv => hvis (List.mem_append_right _ hv), hin⟩

/-- No block is visited twice, be it in one list or in two. -/
theorem Trails.nodes_nodup (h : l.Trails r lo visited classes ts) :
    ((ts.flatMap Thread.nodes).map ThreadNode.addr).Nodup := by
  induction h with
  | nil => exact List.nodup_nil
  | @cons visited k classes nodes stop rest trail more ih =>
      rw [List.flatMap_cons, List.map_append]
      refine List.nodup_append.2 ⟨trail.nodup, ih, ?_⟩
      intro x hx y hy hxy
      rcases List.mem_map.1 hy with ⟨n, hn, rfl⟩
      have hvis := (more.new n hn).1
      apply hvis
      rw [← hxy]
      exact List.mem_append_left _ hx

/-- There are so many addresses at which a heap can have a block. -/
theorem Trails.length_le (h : l.Trails r lo visited classes ts) :
    (ts.flatMap Thread.nodes).length ≤ r.size - (lo + 15) := by
  have hsub : (ts.flatMap Thread.nodes).map ThreadNode.addr
      ⊆ List.range' (lo + 8) (r.size - (lo + 15)) := by
    intro a ha
    rcases List.mem_map.1 ha with ⟨n, hn, rfl⟩
    have hin := (h.new n hn).2
    rw [List.mem_range'_1]
    omega
  have hle := h.nodes_nodup.length_le_of_subset hsub
  rwa [List.length_map, List.length_range'] at hle

end FreeLists

namespace Heap

variable {h : Heap}

/-- The check comes through where there is room for a frame, and it finds nothing exactly when the
bytes are those of a plan: the prologue is in order, the headers follow one another to an epilogue
at the very top, each of them is right about the block before it, no two neighbours are free, free
blocks have two equal tags, and each list leads there and back through the free blocks of its class.
-/
theorem check_decides (h : Heap) :
    (h.lo + frameSize ≤ h.region.size → ∃ vs, h.check = .ok vs)
      ∧ (h.check = .ok [] ↔ ∃ p : Plan, p.lo = h.lo ∧ h.region.Holds p) :=
  ⟨check_total, check_eq_nil_iff_holds⟩

/-- A heap of 160 bytes with a block of eight bytes and one that is followed by no epilogue. Two of
its lists lead into one loop through a payload, one leads into the prologue, and one out of the
heap. -/
def entangled : Heap :=
  let words : List (Nat × UInt32) :=
    [(4, 121), (120, 121), (12, 136), (20, 136), (28, 9), (36, 0xffffffff), (124, 8), (132, 25),
      (140, 144), (144, 136), (148, 136)]
  let bytes := words.foldl (fun r w => r.setWord w.1 w.2) (Region.empty.extend 160 (by decide))
  ⟨⟨.buffer, bytes, 160, nofun⟩, ⟨64, 64⟩, 0, [], rfl⟩

/-- Nothing holds those bytes together, while a new heap has a plan. -/
theorem check_decides_entangled :
    (∃ vs, entangled.check = .ok vs)
      ∧ ¬(∃ p : Plan, p.lo = entangled.lo ∧ entangled.region.Holds p)
      ∧ ∃ h, layOut (Source.buffer 256) ⟨64, 64⟩ = .ok (.ok h) ∧ h.check = .ok []
        ∧ ∃ p : Plan, p.lo = h.lo ∧ h.region.Holds p := by
  have hroom : entangled.lo + frameSize ≤ entangled.region.size := by
    decide +kernel
  have hfound : entangled.check.toOption.map List.isEmpty = some false := by
    decide +kernel
  have hlay : ((layOut (Source.buffer 256) ⟨64, 64⟩).toOption.bind Except.toOption).map
      (fun h => h.check.toOption) = some (some []) := by
    decide +kernel
  refine ⟨(check_decides entangled).1 hroom, ?_, ?_⟩
  · intro hplan
    rw [(check_decides entangled).2.2 hplan] at hfound
    cases hfound
  · rcases Option.map_eq_some_iff.1 hlay with ⟨h, hlay, hcheck⟩
    rcases Option.bind_eq_some_iff.1 hlay with ⟨result, hresult, hok⟩
    have hempty := Fault.toOption_eq_some.1 hcheck
    cases result with
    | error e => cases hok
    | ok k =>
        obtain rfl : k = h := Option.some.inj hok
        exact ⟨k, Fault.toOption_eq_some.1 hresult, hempty, (check_decides k).2.1 hempty⟩

/-- A heap is valid, with no broken rule to be told first, exactly when its bytes are those of a
plan. -/
theorem validate_eq_none_iff :
    h.validate = .ok none ↔ ∃ p : Plan, p.lo = h.lo ∧ h.region.Holds p := by
  rw [← check_eq_nil_iff_holds, validate]
  constructor
  · intro hv
    rcases Fault.bind_eq_ok.1 hv with ⟨vs, hvs, hfirst⟩
    rw [hvs, List.head?_eq_none_iff.1 (Except.ok.inj hfirst)]
  · intro hc
    rw [hc, Fault.ok_bind]
    rfl

/-- An audit comes through on any bytes of a heap that has room for its frame. Its walk over headers
takes steps of at least eight bytes inside the region, and its walks along links go to places inside
the heap where none of them has been, so that there is a bound to both. What the log shows of an
audit is read off its result. -/
theorem audit_survives (hlo : h.lo + frameSize ≤ h.region.size) :
    ∃ a, h.audit = .ok a ∧ h.check = .ok a.violations
      ∧ ∀ s, a = .survey s →
        h.region.Walk (h.lo + frameSize) s.chain
          ∧ 8 * s.chain.blocks.length ≤ h.region.size - (h.lo + frameSize)
          ∧ h.lists.Trails h.region h.lo [] (List.range SizeClass.count) s.threads
          ∧ ((s.threads.flatMap Thread.nodes).map ThreadNode.addr).Nodup
          ∧ s.listed ≤ h.region.size - (h.lo + 15) := by
  rcases exists_audit hlo with ⟨a, ha⟩
  have hcheck : h.check = .ok a.violations := by
    rw [check, ha, Fault.ok_bind, Fault.pure_eq_ok]
  refine ⟨a, ha, hcheck, ?_⟩
  rintro s rfl
  rcases audit_eq_survey ha with ⟨-, -, -, -, -, hchain, hthreads⟩
  have hwalk : h.region.Walk (h.lo + frameSize) s.chain :=
    Region.walk_of_chain (by simp only [frameSize]; omega) hchain
  have htrails := trails_of_threads hlo hthreads
  exact ⟨hwalk, hwalk.length_le, htrails, htrails.nodes_nodup, htrails.length_le⟩

theorem audit_survives_entangled :
    entangled.lo + frameSize ≤ entangled.region.size
      ∧ (∃ vs, entangled.check = .ok vs ∧ .cycle 0 136 ∈ vs ∧ .cycle 1 136 ∈ vs)
      ∧ ∃ a, entangled.audit = .ok a ∧ entangled.check = .ok a.violations
        ∧ ∀ s, a = .survey s →
          entangled.region.Walk (entangled.lo + frameSize) s.chain
            ∧ 8 * s.chain.blocks.length ≤ entangled.region.size - (entangled.lo + frameSize)
            ∧ entangled.lists.Trails entangled.region entangled.lo [] (List.range SizeClass.count)
                s.threads
            ∧ ((s.threads.flatMap Thread.nodes).map ThreadNode.addr).Nodup
            ∧ s.listed ≤ entangled.region.size - (entangled.lo + 15) := by
  have hlo : entangled.lo + frameSize ≤ entangled.region.size := by
    decide +kernel
  have hcycles : entangled.check.toOption.map (fun vs => vs.filter fun v =>
      v = .cycle 0 136 ∨ v = .cycle 1 136) = some [.cycle 0 136, .cycle 1 136] := by
    decide +kernel
  rcases Option.map_eq_some_iff.1 hcycles with ⟨vs, hvs, hfilter⟩
  have hmem : ∀ v ∈ [Violation.cycle 0 136, .cycle 1 136], v ∈ vs := by
    intro v hv
    rw [← hfilter] at hv
    exact (List.mem_filter.1 hv).1
  refine ⟨hlo, ⟨vs, Fault.toOption_eq_some.1 hvs, hmem _ ?_, hmem _ ?_⟩, audit_survives hlo⟩
  · exact List.mem_cons_self
  · exact List.mem_cons_of_mem _ List.mem_cons_self

end Heap

end BoundaryTag
