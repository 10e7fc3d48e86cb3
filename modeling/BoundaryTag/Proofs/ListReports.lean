import BoundaryTag.Proofs.EmptyReports
import BoundaryTag.Proofs.HeaderReports

/-!
# ListReports — what is reported along lists

A walk along the links of a list ends on any bytes (`Trail`). Here is what is reported about it.

* `Trail.mem_violations`: the rules that are broken where the list leads, and
  `Trail.violations_nodup`: each of them once, since no walk goes to a block again.
* `Trail.mem_iff`: the addresses that walks have been to are those to which lists lead, even if a
  walk stops where an earlier one has been. So what a walk makes of an address does not depend on
  how the walks before it went.
* `mem_violations_threads` and `mem_nodes_iff` say the same of all lists together.
-/

namespace BoundaryTag

namespace FreeLists

variable {l : FreeLists} {r : Region} {lo k a b x : Nat} {path path' : List Nat}
  {visited free : List Nat} {cursor : Option Nat} {nodes : List ThreadNode} {stop : ThreadEnd}
  {Free : Nat → Prop} {v : Violation}

/-! ## From block to block -/

theorem GoesTo.onward_iff (h : l.GoesTo r lo k path a) :
    l.Onward r lo k path path' ↔ path' = a :: path := by
  constructor
  · rintro ⟨b, hb, rfl⟩
    rw [Option.some.inj (hb.1.symm.trans h.1)]
  · rintro rfl
    exact ⟨a, h, rfl⟩

/-- A walk keeps what it has come through. -/
theorem mem_of_comes (h : Relation.ReflTransGen (l.Onward r lo k) path path') (hx : x ∈ path) :
    x ∈ path' := by
  induction h with
  | refl => exact hx
  | tail _ hstep ih =>
      rcases hstep with ⟨a, -, rfl⟩
      exact List.mem_cons_of_mem a ih

namespace Breaks

theorem index_eq (h : l.Breaks r lo Free k path v) : v.index? = some k := by
  cases h <;> rfl

/-- A rule is broken where the link leads. -/
theorem onward_eq (h : l.Breaks r lo Free k path v) : l.onward r k path = some v.addr := by
  cases h with
  | listOutOfBounds link out => exact link
  | cycle link inside seen => exact link
  | linkMismatch goes unanswered => exact goes.1
  | allocatedInList goes allocated => exact goes.1
  | notABlock goes unallocated unknown => exact goes.1
  | wrongClass goes unallocated free other => exact goes.1

/-- A rule about a block is broken where the walk goes on. -/
theorem goesTo_iff (h : l.Breaks r lo Free k path v) :
    l.GoesTo r lo k path v.addr ↔ v.ofBlock = true := by
  cases h with
  | listOutOfBounds link out => exact iff_of_false (fun h => out h.2.1) nofun
  | cycle link inside seen => exact iff_of_false (fun h => h.2.2 seen) nofun
  | linkMismatch goes unanswered => exact iff_of_true goes rfl
  | allocatedInList goes allocated => exact iff_of_true goes rfl
  | notABlock goes unallocated unknown => exact iff_of_true goes rfl
  | wrongClass goes unallocated free other => exact iff_of_true goes rfl

end Breaks

/-- The rules that are broken where a link leads and the walk does not go on. -/
theorem breaks_iff_of_not_goesTo (hlink : l.onward r k path = some a)
    (hno : ¬ l.GoesTo r lo k path a) : l.Breaks r lo Free k path v ↔
      ¬ Inside r lo a ∧ v = .listOutOfBounds k a ∨ Inside r lo a ∧ v = .cycle k a := by
  constructor
  · intro h
    obtain rfl : a = v.addr := Option.some.inj (hlink.symm.trans h.onward_eq)
    cases h with
    | listOutOfBounds link out => exact .inl ⟨out, rfl⟩
    | cycle link inside seen => exact .inr ⟨inside, rfl⟩
    | linkMismatch goes unanswered => exact absurd goes hno
    | allocatedInList goes allocated => exact absurd goes hno
    | notABlock goes unallocated unknown => exact absurd goes hno
    | wrongClass goes unallocated free other => exact absurd goes hno
  · rintro (⟨hout, rfl⟩ | ⟨hin, rfl⟩)
    · exact .listOutOfBounds hlink hout
    · exact .cycle hlink hin (Classical.not_not.1 fun hnew => hno ⟨hlink, hin, hnew⟩)

/-- A walk ends where it does not go on. -/
theorem exists_of_not_goesTo {P : List Nat → Prop} (hno : ∀ a, ¬ l.GoesTo r lo k path a) :
    (∃ q, Relation.ReflTransGen (l.Onward r lo k) path q ∧ P q) ↔ P path := by
  refine exists_of_stop ?_
  rintro q ⟨a, ha, -⟩
  exact hno a ha

/-- A walk that has one way to go on goes on to nothing else. -/
theorem not_goesTo_of_link (hlink : l.onward r k path = some a) (hno : ¬ l.GoesTo r lo k path a)
    (b : Nat) : ¬ l.GoesTo r lo k path b := by
  intro hb
  obtain rfl := Option.some.inj (hlink.symm.trans hb.1)
  exact hno hb

/-! ## One list -/

theorem mem_backViolations {prev : Nat} : v ∈ (l.nodeAt r a).backViolations k prev ↔
    l.links.linkAt r a ≠ some prev ∧ v = .linkMismatch k a prev (l.links.linkAt r a) := by
  rw [ThreadNode.backViolations, nodeAt, List.mem_ite_nil_left, List.mem_singleton]

theorem mem_placeViolations : v ∈ (l.nodeAt r a).placeViolations k free ↔
    (r.tagAt a).allocated = true ∧ v = .allocatedInList k a
      ∨ (r.tagAt a).allocated = false ∧ a ∉ free ∧ v = .notABlock k a
      ∨ (r.tagAt a).allocated = false ∧ a ∈ free ∧ SizeClass.of (r.tagAt a).size ≠ k
        ∧ v = .wrongClass k a (r.tagAt a).size := by
  rw [ThreadNode.placeViolations, nodeAt]
  by_cases ha : (r.tagAt a).allocated = true
  · simp only [ha, if_true, List.mem_singleton, true_and, Bool.true_eq_false, false_and, or_false]
  · have hfree : (r.tagAt a).allocated = false := Bool.eq_false_iff.2 ha
    by_cases hmem : a ∈ free
    · simp only [hfree, hmem, not_true, if_false, Bool.false_eq_true, List.mem_ite_nil_right,
        List.mem_singleton, true_and, false_and, false_or]
    · simp only [hfree, hmem, not_false_iff, if_true, if_false, Bool.false_eq_true,
        List.mem_singleton, true_and, false_and, false_or, or_false]

/-- What is reported about a block are the rules that it breaks. -/
theorem mem_violations_node (hgoes : l.GoesTo r lo k path a) (hfree : ∀ x, x ∈ free ↔ Free x) :
    v ∈ (l.nodeAt r a).backViolations k (l.last k path) ++ (l.nodeAt r a).placeViolations k free ↔
      l.Breaks r lo Free k path v := by
  rw [List.mem_append, mem_backViolations, mem_placeViolations, hfree a]
  constructor
  · rintro (⟨h, rfl⟩ | ⟨h, rfl⟩ | ⟨h, hno, rfl⟩ | ⟨h, hyes, hother, rfl⟩)
    · exact .linkMismatch hgoes h
    · exact .allocatedInList hgoes h
    · exact .notABlock hgoes h hno
    · exact .wrongClass hgoes h hyes hother
  · intro h
    -- a rule about a block is about the one that the walk goes to
    have ha : v.addr = a := Option.some.inj (h.onward_eq.symm.trans hgoes.1)
    have hblock : v.ofBlock = true := h.goesTo_iff.1 (ha ▸ hgoes)
    cases h with
    | listOutOfBounds link out => cases hblock
    | cycle link inside seen => cases hblock
    | linkMismatch goes unanswered =>
        obtain rfl := ha
        exact .inl ⟨unanswered, rfl⟩
    | allocatedInList goes allocated =>
        obtain rfl := ha
        exact .inr (.inl ⟨allocated, rfl⟩)
    | notABlock goes unallocated unknown =>
        obtain rfl := ha
        exact .inr (.inr (.inl ⟨unallocated, unknown, rfl⟩))
    | wrongClass goes unallocated free other =>
        obtain rfl := ha
        exact .inr (.inr (.inr ⟨unallocated, free, other, rfl⟩))

/-- No rule is reported twice for a block. -/
theorem violations_node_nodup {n : ThreadNode} {prev : Nat} :
    (n.backViolations k prev ++ n.placeViolations k free).Nodup := by
  unfold ThreadNode.backViolations ThreadNode.placeViolations
  split_ifs <;> simp

theorem seen_nil : l.Seen r lo k [] x ↔ ∃ j < k, l.LeadsTo r lo j x :=
  or_iff_right List.not_mem_nil

theorem seen_cons (a : Nat) (hvis : ∀ x, x ∈ visited ↔ l.Seen r lo k path x) (x : Nat) :
    x ∈ a :: visited ↔ l.Seen r lo k (a :: path) x := by
  rw [List.mem_cons, hvis x, Seen, Seen, List.mem_cons, or_assoc]

/-- What is reported about a list from a block on are the rules that are broken there. -/
theorem Trail.mem_violations (h : l.Trail r lo visited cursor nodes stop)
    (hcursor : cursor = l.onward r k path) (hvis : ∀ x, x ∈ visited ↔ l.Seen r lo k path x)
    (hfree : ∀ x, x ∈ free ↔ Free x) :
    v ∈ Thread.violationsFrom k free stop (l.last k path) nodes ↔
      ∃ q, Relation.ReflTransGen (l.Onward r lo k) path q ∧ l.Breaks r lo Free k q v := by
  -- what counts as visited grows with the path, and so does what is seen
  induction h generalizing path with
  | done =>
      rw [exists_of_not_goesTo fun a ha => nomatch hcursor.trans ha.1]
      exact iff_of_false List.not_mem_nil fun h => nomatch hcursor.trans h.onward_eq
  | @outside visited a out =>
      have hout : ¬ Inside r lo a := by
        rintro ⟨hlo, hsize⟩
        omega
      have hno : ¬ l.GoesTo r lo k path a := fun h => hout h.2.1
      rw [exists_of_not_goesTo (not_goesTo_of_link hcursor.symm hno),
        breaks_iff_of_not_goesTo hcursor.symm hno, Thread.violationsFrom, ThreadEnd.violations,
        List.mem_singleton, and_iff_right hout, or_iff_left fun h => hout h.1]
  | @again visited a inside seen =>
      have hin : Inside r lo a := inside
      have hno : ¬ l.GoesTo r lo k path a := fun h => h.2.2 ((hvis a).1 seen)
      rw [exists_of_not_goesTo (not_goesTo_of_link hcursor.symm hno),
        breaks_iff_of_not_goesTo hcursor.symm hno, Thread.violationsFrom, ThreadEnd.violations,
        List.mem_singleton, and_iff_right hin, or_iff_right fun h => h.1 hin]
  | @node visited a nodes stop inside new more ih =>
      have hgoes : l.GoesTo r lo k path a := ⟨hcursor.symm, inside, fun h => new ((hvis a).2 h)⟩
      have hlink : l.links.linkAt r (a + 4) = l.onward r k (a :: path) := rfl
      have hrest := ih hlink (seen_cons a hvis)
      rw [exists_of_step fun _ => hgoes.onward_iff, Thread.violationsFrom, List.mem_append]
      exact or_congr (mem_violations_node hgoes hfree) hrest

/-- No rule is reported twice for a list. -/
theorem Trail.violations_nodup (h : l.Trail r lo visited cursor nodes stop)
    (hcursor : cursor = l.onward r k path) (hvis : ∀ x, x ∈ visited ↔ l.Seen r lo k path x) :
    (Thread.violationsFrom k free stop (l.last k path) nodes).Nodup := by
  induction h generalizing path with
  | done => exact List.nodup_nil
  | outside out => exact List.nodup_singleton _
  | again inside seen => exact List.nodup_singleton _
  | @node visited a nodes stop inside new more ih =>
      have hgoes : l.GoesTo r lo k path a := ⟨hcursor.symm, inside, fun h => new ((hvis a).2 h)⟩
      have hlink : l.links.linkAt r (a + 4) = l.onward r k (a :: path) := rfl
      have hvis' := seen_cons a hvis
      have hfree : ∀ x, x ∈ free ↔ x ∈ free := fun x => Iff.rfl
      rw [Thread.violationsFrom]
      refine List.nodup_append.2 ⟨violations_node_nodup, ih hlink hvis', ?_⟩
      -- a block that the walk has come through is not gone to again
      rintro v hv w hw rfl
      have hnode := (mem_violations_node hgoes hfree).1 hv
      rcases (more.mem_violations hlink hvis' hfree).1 hw with ⟨q, hq, hrest⟩
      have ha : v.addr = a := Option.some.inj (hnode.onward_eq.symm.trans hgoes.1)
      have hblock : v.ofBlock = true := hnode.goesTo_iff.1 (ha ▸ hgoes)
      have hagain : l.GoesTo r lo k q v.addr := hrest.goesTo_iff.2 hblock
      apply hagain.2.2
      rw [ha]
      exact .inl (mem_of_comes hq List.mem_cons_self)

/-! ## Where lists lead -/

/-- A walk along links misses no address inside the heap, unless it has been there. -/
theorem Trail.mem_of_cursor (h : l.Trail r lo visited (some a) nodes stop) (hin : Inside r lo a) :
    a ∈ nodes.map ThreadNode.addr ++ visited := by
  cases h with
  | outside out =>
      rcases hin with ⟨hlo, hsize⟩
      omega
  | again inside seen => exact List.mem_append_right _ seen
  | node inside new more => exact List.mem_append_left _ List.mem_cons_self

theorem Trail.mem_of_link (h : l.Trail r lo visited cursor nodes stop)
    (ha : a ∈ nodes.map ThreadNode.addr) (hlink : l.links.linkAt r (a + 4) = some b)
    (hin : Inside r lo b) : b ∈ nodes.map ThreadNode.addr ++ visited := by
  induction h with
  | done => cases ha
  | outside out => cases ha
  | again inside seen => cases ha
  | @node visited c nodes stop inside new more ih =>
      have hrest : b ∈ nodes.map ThreadNode.addr ++ c :: visited := by
        rcases List.mem_cons.1 ha with rfl | ha
        · exact Trail.mem_of_cursor (hlink ▸ more) hin
        · exact ih ha
      rw [List.map_cons, List.cons_append]
      exact List.perm_middle.mem_iff.1 hrest

theorem Trail.leadsTo (h : l.Trail r lo visited cursor nodes stop)
    (hcursor : ∀ b, cursor = some b → Inside r lo b → l.LeadsTo r lo k b)
    (hx : x ∈ nodes.map ThreadNode.addr) : l.LeadsTo r lo k x := by
  induction h with
  | done => cases hx
  | outside out => cases hx
  | again inside seen => cases hx
  | @node visited a nodes stop inside new more ih =>
      have ha : l.LeadsTo r lo k a := hcursor a rfl inside
      rcases List.mem_cons.1 hx with rfl | hx
      · exact ha
      · exact ih (fun b hb hin => ha.next hb hin) hx

/-- After a list, the addresses that were visited are those where this list or an earlier one leads.
-/
theorem Trail.mem_iff
    (h : l.Trail r lo visited (l.links.linkAt r (l.sentinelAt k + 4)) nodes stop)
    (hvis : ∀ x, x ∈ visited ↔ ∃ j < k, l.LeadsTo r lo j x) :
    x ∈ nodes.map ThreadNode.addr ++ visited ↔ ∃ j < k + 1, l.LeadsTo r lo j x := by
  constructor
  · intro hx
    rcases List.mem_append.1 hx with hx | hx
    · exact ⟨k, Nat.lt_succ_self k, h.leadsTo (fun b hb hin => .first hb hin) hx⟩
    · rcases (hvis x).1 hx with ⟨j, hj, hleads⟩
      exact ⟨j, Nat.lt_succ_of_lt hj, hleads⟩
  · rintro ⟨j, hj, hleads⟩
    rcases Nat.lt_succ_iff_lt_or_eq.1 hj with hj | rfl
    · exact List.mem_append_right _ ((hvis x).2 ⟨j, hj, hleads⟩)
    -- where the walk stopped at a block of an earlier list, that list led on in its place
    induction hleads with
    | first link inside => exact Trail.mem_of_cursor (link ▸ h) inside
    | next _ link inside ih =>
        rcases List.mem_append.1 ih with hnode | hold
        · exact h.mem_of_link hnode link inside
        · rcases (hvis _).1 hold with ⟨i, hi, hleads⟩
          exact List.mem_append_right _ ((hvis _).2 ⟨i, hi, hleads.next link inside⟩)

/-! ## All lists -/

/-- A thread is the walk through its list, after those through the lists before. -/
def Traces (l : FreeLists) (r : Region) (lo : Nat) (t : Thread) : Prop :=
  ∃ visited, l.Trail r lo visited (l.onward r t.index []) t.nodes t.stop
    ∧ t.sentinel = l.last t.index [] ∧ ∀ x, x ∈ visited ↔ ∃ j < t.index, l.LeadsTo r lo j x

theorem Trails.traces {n : Nat} {ts : List Thread}
    (h : l.Trails r lo visited (List.range' k n) ts)
    (hvis : ∀ x, x ∈ visited ↔ ∃ j < k, l.LeadsTo r lo j x) :
    ts.map Thread.index = List.range' k n ∧ ∀ t ∈ ts, l.Traces r lo t := by
  induction n generalizing k visited ts with
  | zero =>
      cases h
      exact ⟨rfl, nofun⟩
  | succ n ih =>
      rw [List.range'_succ] at h
      cases h with
      | @cons _ _ _ nodes stop rest trail more =>
          rcases ih more fun x => trail.mem_iff hvis with ⟨hindex, htraces⟩
          refine ⟨?_, fun t ht => ?_⟩
          · rw [List.map_cons, hindex, List.range'_succ]
          · rcases List.mem_cons.1 ht with rfl | ht
            · exact ⟨visited, trail, rfl, hvis⟩
            · exact htraces t ht

section Threads

variable {t : Thread} {ts : List Thread} {n : Nat}

theorem Traces.mem_violations (h : l.Traces r lo t) (hfree : ∀ x, x ∈ free ↔ Free x) :
    v ∈ t.violations free ↔
      ∃ path, l.Comes r lo t.index path ∧ l.Breaks r lo Free t.index path v := by
  rcases h with ⟨visited, trail, hsentinel, hvis⟩
  rw [Thread.violations, hsentinel]
  exact trail.mem_violations rfl (fun x => (hvis x).trans seen_nil.symm) hfree

theorem Traces.violations_nodup (h : l.Traces r lo t) : (t.violations free).Nodup := by
  rcases h with ⟨visited, trail, hsentinel, hvis⟩
  rw [Thread.violations, hsentinel]
  exact trail.violations_nodup rfl fun x => (hvis x).trans seen_nil.symm

/-- The blocks of all threads are the addresses to which the lists lead. -/
theorem mem_nodes_iff (hindex : ts.map Thread.index = List.range n)
    (htraces : ∀ t ∈ ts, l.Traces r lo t) :
    x ∈ (ts.flatMap Thread.nodes).map ThreadNode.addr ↔ ∃ j < n, l.LeadsTo r lo j x := by
  have hmem : x ∈ (ts.flatMap Thread.nodes).map ThreadNode.addr ↔
      ∃ t ∈ ts, x ∈ t.nodes.map ThreadNode.addr := by
    rw [List.map_flatMap, List.mem_flatMap]
  rw [hmem]
  constructor
  · rintro ⟨t, ht, hx⟩
    rcases htraces t ht with ⟨visited, trail, -, -⟩
    have hn : t.index ∈ List.range n := hindex ▸ List.mem_map_of_mem ht
    exact ⟨t.index, List.mem_range.1 hn, trail.leadsTo (fun b hb hin => .first hb hin) hx⟩
  · rintro ⟨j, hj, hleads⟩
    -- the first list that leads there has the block in its thread
    induction j using Nat.strongRecOn with
    | ind j ih =>
        have hj' : j ∈ ts.map Thread.index := hindex ▸ List.mem_range.2 hj
        rcases List.mem_map.1 hj' with ⟨t, ht, rfl⟩
        rcases htraces t ht with ⟨visited, trail, -, hvis⟩
        have hx := (trail.mem_iff hvis).2 ⟨t.index, Nat.lt_succ_self _, hleads⟩
        rcases List.mem_append.1 hx with hnode | hold
        · exact ⟨t, ht, hnode⟩
        · rcases (hvis x).1 hold with ⟨i, hi, hearlier⟩
          exact ih i hi (Nat.lt_trans hi hj) hearlier

/-- What is reported about the lists are the rules that are broken where they lead. -/
theorem mem_violations_threads (hindex : ts.map Thread.index = List.range n)
    (htraces : ∀ t ∈ ts, l.Traces r lo t) (hfree : ∀ x, x ∈ free ↔ Free x) :
    v ∈ ts.flatMap (Thread.violations · free) ↔
      ∃ j < n, ∃ path, l.Comes r lo j path ∧ l.Breaks r lo Free j path v := by
  rw [List.mem_flatMap]
  constructor
  · rintro ⟨t, ht, hv⟩
    have hn : t.index ∈ List.range n := hindex ▸ List.mem_map_of_mem ht
    exact ⟨t.index, List.mem_range.1 hn, ((htraces t ht).mem_violations hfree).1 hv⟩
  · rintro ⟨j, hj, hbreaks⟩
    have hj' : j ∈ ts.map Thread.index := hindex ▸ List.mem_range.2 hj
    rcases List.mem_map.1 hj' with ⟨t, ht, rfl⟩
    exact ⟨t, ht, ((htraces t ht).mem_violations hfree).2 hbreaks⟩

/-- No rule is reported twice for the lists. -/
theorem violations_threads_nodup (hindex : ts.map Thread.index = List.range n)
    (htraces : ∀ t ∈ ts, l.Traces r lo t) :
    (ts.flatMap (Thread.violations · free)).Nodup := by
  have hfree : ∀ x, x ∈ free ↔ x ∈ free := fun x => Iff.rfl
  have hdistinct : ts.Pairwise fun t u => t.index ≠ u.index :=
    List.pairwise_map.1 (hindex ▸ List.nodup_range)
  refine List.nodup_flatMap.2 ⟨fun t ht => (htraces t ht).violations_nodup, ?_⟩
  refine hdistinct.imp_of_mem fun {t u} ht hu hne v hv hw => hne ?_
  rcases ((htraces t ht).mem_violations hfree).1 hv with ⟨p, -, hp⟩
  rcases ((htraces u hu).mem_violations hfree).1 hw with ⟨q, -, hq⟩
  exact Option.some.inj (hp.index_eq.symm.trans hq.index_eq)

end Threads

end FreeLists

end BoundaryTag
