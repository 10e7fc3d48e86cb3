import BoundaryTag.Proofs.ListReports
import BoundaryTag.Proofs.CheckVerdict

/-!
# ExactReports — a report is exact

The check of a heap whose prologue is sound reports the rules that the heap breaks, those and no
others, whatever its bytes are. So a report about a heap that is damaged in several ways can be
taken at its word, and what it does not mention is in order.

* `Heap.mem_chainViolations`, `mem_threadViolations` and their like say so part by part.
* `Heap.violations_nodup`: the parts have nothing in common, and no rule is reported twice.
* `Heap.reports_exactly` puts them together.
-/

namespace BoundaryTag

/-- The number of the addresses that a list gives once each. -/
theorem ncard_eq_length {xs : List Nat} {P : Nat → Prop} (hnd : xs.Nodup)
    (hmem : ∀ x, x ∈ xs ↔ P x) : Set.ncard {x | P x} = xs.length := by
  have hset : {x | P x} = (xs.toFinset : Set Nat) := by
    ext x
    rw [Set.mem_ofPred_eq, Finset.mem_coe, List.mem_toFinset, hmem]
  rw [hset, Set.ncard_coe_finset, List.toFinset_card_of_nodup hnd]

namespace Heap

variable {h : Heap} {s : Survey} {v : Violation}

/-! ## What an audit sees -/

theorem start_mod : (h.lo + frameSize) % 8 = 0 := by
  have := h.aligned
  simp only [frameSize]
  omega

theorem walk_of_audit (ha : h.audit = .ok (.survey s)) :
    h.region.Walk (h.lo + frameSize) s.chain := by
  rcases audit_eq_survey ha with ⟨-, -, -, -, -, hchain, -⟩
  exact Region.walk_of_chain (by simp only [frameSize]; omega) hchain

theorem traces_of_audit (hlo : h.lo + frameSize ≤ h.region.size) (ha : h.audit = .ok (.survey s)) :
    s.threads.map Thread.index = List.range SizeClass.count
      ∧ ∀ t ∈ s.threads, h.lists.Traces h.region h.lo t := by
  rcases audit_eq_survey ha with ⟨-, -, -, -, -, -, hthreads⟩
  have htrails := trails_of_threads hlo hthreads
  rw [List.range_eq_range'] at htrails ⊢
  exact htrails.traces fun x => iff_of_false List.not_mem_nil fun ⟨j, hj, _⟩ => Nat.not_lt_zero j hj

theorem mem_freeBlocks_iff (ha : h.audit = .ok (.survey s)) (x : Nat) :
    x ∈ s.chain.freeBlocks ↔ h.region.FreeBlock (h.lo + frameSize) x :=
  (walk_of_audit ha).mem_freeBlocks rfl

/-! ## Rule by rule -/

theorem mem_prologueViolations (ha : h.audit = .ok (.survey s)) : v ∈ s.prologueViolations ↔
    h.region.word (h.lo + prologueSize) ≠ (h.region.tagAt h.prologue).word
      ∧ v = .footerMismatch h.prologue (h.region.tagAt h.prologue).word
        (h.region.word (h.lo + prologueSize)) := by
  rcases audit_eq_survey ha with ⟨-, -, hprologue, htag, hfooter, -, -⟩
  rw [Survey.prologueViolations, List.mem_ite_nil_left, List.mem_singleton, hprologue, htag,
    hfooter]
  rfl

theorem mem_chainViolations (hlo : h.lo + frameSize ≤ h.region.size)
    (ha : h.audit = .ok (.survey s)) : v ∈ s.chain.violations s.top s.prologue ↔
      ∃ p, h.region.Comes (h.lo + frameSize) p ∧ h.region.Breaks p v := by
  rcases audit_eq_survey ha with ⟨-, htop, -, -, -, -, -⟩
  rw [Chain.violations, htop]
  exact (walk_of_audit ha).mem_violations (p := ⟨none, h.lo + frameSize⟩) rfl hlo start_mod nofun

theorem mem_threadViolations (hlo : h.lo + frameSize ≤ h.region.size)
    (ha : h.audit = .ok (.survey s)) :
    v ∈ s.threads.flatMap (Thread.violations · s.chain.freeBlocks) ↔
      ∃ k < SizeClass.count, ∃ path, h.lists.Comes h.region h.lo k path
        ∧ h.lists.Breaks h.region h.lo (h.region.FreeBlock (h.lo + frameSize)) k path v := by
  rcases traces_of_audit hlo ha with ⟨hindex, htraces⟩
  exact FreeLists.mem_violations_threads hindex htraces (mem_freeBlocks_iff ha)

theorem mem_countViolations (hlo : h.lo + frameSize ≤ h.region.size)
    (ha : h.audit = .ok (.survey s)) : v ∈ s.countViolations ↔
      ∃ m n, Set.ncard {x | h.region.FreeBlock (h.lo + frameSize) x} = m
        ∧ Set.ncard {x | ∃ j < SizeClass.count, h.lists.LeadsTo h.region h.lo j x} = n
        ∧ m ≠ n ∧ v = .countMismatch m n := by
  rcases traces_of_audit hlo ha with ⟨hindex, htraces⟩
  have htrails := trails_of_threads hlo (audit_eq_survey ha).2.2.2.2.2.2
  have hheap := ncard_eq_length (walk_of_audit ha).freeBlocks_nodup (mem_freeBlocks_iff ha)
  have hlists := ncard_eq_length htrails.nodes_nodup
    fun x => FreeLists.mem_nodes_iff (x := x) hindex htraces
  rw [List.length_map] at hlists
  rw [Survey.countViolations, Survey.listed, List.mem_ite_nil_left, List.mem_singleton, hheap,
    hlists]
  simp only [exists_eq_left', exists_and_left, ne_eq]

/-- What an audit reports about a heap are the rules that it breaks. -/
theorem mem_violations_iff (hlo : h.lo + frameSize ≤ h.region.size)
    (ha : h.audit = .ok (.survey s)) : v ∈ s.violations ↔ h.Breaks v := by
  rw [Survey.violations, List.mem_append, List.mem_append, List.mem_append,
    mem_prologueViolations ha, mem_chainViolations hlo ha, mem_threadViolations hlo ha,
    mem_countViolations hlo ha]
  constructor
  · rintro (((⟨hne, rfl⟩ | ⟨p, hcomes, hbreaks⟩) | ⟨k, hk, path, hcomes, hbreaks⟩)
      | ⟨m, n, hm, hn, hne, rfl⟩)
    · exact .prologue hne
    · exact .chain hcomes hbreaks
    · exact .list hk hcomes hbreaks
    · exact .count hm hn hne
  · intro hv
    cases hv with
    | prologue differ => exact .inl (.inl (.inl ⟨differ, rfl⟩))
    | chain comes breaks => exact .inl (.inl (.inr ⟨_, comes, breaks⟩))
    | list known comes breaks => exact .inl (.inr ⟨_, known, _, comes, breaks⟩)
    | count inHeap inLists differ => exact .inr ⟨_, _, inHeap, inLists, differ, rfl⟩

/-! ## Each rule once -/

theorem chainViolations_nodup (hlo : h.lo + frameSize ≤ h.region.size)
    (ha : h.audit = .ok (.survey s)) : (s.chain.violations s.top s.prologue).Nodup := by
  rcases audit_eq_survey ha with ⟨-, htop, -, -, -, -, -⟩
  rw [Chain.violations, htop]
  exact (walk_of_audit ha).violations_nodup (p := ⟨none, h.lo + frameSize⟩) rfl hlo start_mod nofun

/-- No rule is reported twice. -/
theorem violations_nodup (hlo : h.lo + frameSize ≤ h.region.size)
    (ha : h.audit = .ok (.survey s)) : s.violations.Nodup := by
  rcases traces_of_audit hlo ha with ⟨hindex, htraces⟩
  have hprologue : s.prologueViolations.Nodup :=
    Violation.sublist_of_else.nodup (List.nodup_singleton _)
  have hcount : s.countViolations.Nodup := Violation.sublist_of_else.nodup (List.nodup_singleton _)
  have hthreads : (s.threads.flatMap (Thread.violations · s.chain.freeBlocks)).Nodup :=
    FreeLists.violations_threads_nodup hindex htraces
  -- the parts of a report are told apart by lists, and by addresses
  have hfirst : ∀ v ∈ s.prologueViolations, v.addr = h.lo + 8 ∧ v.index? = none := by
    intro v hv
    obtain ⟨-, rfl⟩ := (mem_prologueViolations ha).1 hv
    exact ⟨rfl, rfl⟩
  have hwalked : ∀ v ∈ s.chain.violations s.top s.prologue,
      h.lo + frameSize ≤ v.addr ∧ v.index? = none := by
    intro v hv
    rcases (mem_chainViolations hlo ha).1 hv with ⟨p, hcomes, hbreaks⟩
    exact ⟨hbreaks.addr_eq ▸ Region.addr_le_of_comes hcomes, hbreaks.index_eq⟩
  have hlisted : ∀ v ∈ s.threads.flatMap (Thread.violations · s.chain.freeBlocks),
      v.index? ≠ none := by
    intro v hv
    rcases (mem_threadViolations hlo ha).1 hv with ⟨k, -, path, -, hbreaks⟩
    rw [hbreaks.index_eq]
    exact Option.some_ne_none k
  have hcounted : ∀ v ∈ s.countViolations, v.addr = 0 ∧ v.index? = none := by
    intro v hv
    obtain ⟨m, n, -, -, -, rfl⟩ := (mem_countViolations hlo ha).1 hv
    exact ⟨rfl, rfl⟩
  simp only [frameSize] at hwalked
  rw [Survey.violations]
  refine List.nodup_append.2 ⟨List.nodup_append.2 ⟨List.nodup_append.2
    ⟨hprologue, chainViolations_nodup hlo ha, ?_⟩, hthreads, ?_⟩, hcount, ?_⟩
  · rintro v hv w hw rfl
    have hv' := hfirst v hv
    have hw' := hwalked v hw
    omega
  · rintro v hv w hw rfl
    rcases List.mem_append.1 hv with hv | hv
    · exact hlisted v hw (hfirst v hv).2
    · exact hlisted v hw (hwalked v hv).2
  · rintro v hv w hw rfl
    have hw' := hcounted v hw
    rcases List.mem_append.1 hv with hv | hv
    · rcases List.mem_append.1 hv with hv | hv
      · have hv' := hfirst v hv
        omega
      · have hv' := hwalked v hv
        omega
    · exact hlisted v hv hw'.2

/-- An audit gets past a sound prologue. -/
theorem exists_survey (hlo : h.lo + frameSize ≤ h.region.size)
    (hpro : (h.region.tagAt h.prologue).size = prologueSize
      ∧ (h.region.tagAt h.prologue).allocated = true) : ∃ s, h.audit = .ok (.survey s) := by
  rcases exists_audit hlo with ⟨a, ha⟩
  have hhead : h.region.header h.prologue = .ok (h.region.tagAt h.prologue) := by
    simp only [frameSize] at hlo
    exact Region.header_eq (by simp only [prologue]; omega) (by simp only [prologue]; omega)
  have hsurvey := ha
  rw [audit, hhead, Fault.ok_bind, if_pos hpro] at hsurvey
  rcases Fault.bind_eq_ok.1 hsurvey with ⟨footer, -, hsurvey⟩
  rcases Fault.bind_eq_ok.1 hsurvey with ⟨c, -, hsurvey⟩
  rcases Fault.bind_eq_ok.1 hsurvey with ⟨ts, -, hsurvey⟩
  cases hsurvey
  exact ⟨_, ha⟩

/-- The check of a heap with a sound prologue reports each rule that is broken, once, and no other.
-/
theorem reports_exactly (hlo : h.lo + frameSize ≤ h.region.size)
    (hpro : (h.region.tagAt h.prologue).size = prologueSize
      ∧ (h.region.tagAt h.prologue).allocated = true) :
    ∃ vs, h.check = .ok vs ∧ vs.Nodup ∧ ∀ v, v ∈ vs ↔ h.Breaks v := by
  rcases exists_survey hlo hpro with ⟨s, ha⟩
  refine ⟨s.violations, ?_, violations_nodup hlo ha, fun v => mem_violations_iff hlo ha⟩
  rw [check, ha, Fault.ok_bind, Fault.pure_eq_ok]
  rfl

def entangledReport : List Violation :=
  [.badSize 128 8, .footerMismatch 128 8 0, .stalePrevFree 136 false, .badEpilogue 160,
    .linkMismatch 0 136 8 none, .allocatedInList 0 136, .notABlock 0 144, .cycle 0 136,
    .cycle 1 136, .linkMismatch 2 9 24 (some 2281701376), .notABlock 2 9,
    .listOutOfBounds 3 4294967295, .countMismatch 1 3]

theorem reports_exactly_entangled :
    entangled.lo + frameSize ≤ entangled.region.size
      ∧ ((entangled.region.tagAt entangled.prologue).size = prologueSize
        ∧ (entangled.region.tagAt entangled.prologue).allocated = true)
      ∧ entangled.check = .ok entangledReport ∧ entangledReport.Nodup
      ∧ ∀ v, v ∈ entangledReport ↔ entangled.Breaks v := by
  have hlo : entangled.lo + frameSize ≤ entangled.region.size := by
    decide +kernel
  have hpro : (entangled.region.tagAt entangled.prologue).size = prologueSize
      ∧ (entangled.region.tagAt entangled.prologue).allocated = true := by
    decide +kernel
  have hrun : entangled.check.toOption = some entangledReport := by
    decide +kernel
  have hcheck : entangled.check = .ok entangledReport := Fault.toOption_eq_some.1 hrun
  rcases reports_exactly hlo hpro with ⟨vs, hvs, hnodup, hexact⟩
  obtain rfl : vs = entangledReport := Except.ok.inj (hvs.symm.trans hcheck)
  exact ⟨hlo, hpro, hcheck, hnodup, hexact⟩

end Heap

end BoundaryTag
