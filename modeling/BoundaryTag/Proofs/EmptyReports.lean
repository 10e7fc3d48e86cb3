import BoundaryTag.Audit.Report
import BoundaryTag.Proofs.Walks

/-!
# EmptyReports — what an empty report means

The audit of a heap finds no broken rule exactly when its region holds a plan, whatever the bytes
are and however many there are.

* `threadsFrom_eq` and `lists_of_violations` put the threads of all classes together.
* `audit_of_holds`: the audit of a heap that holds a plan, and `violations_of_holds`: it breaks no
  rule.
* `holds_of_violations`: a heap in which no rule is broken holds a plan.
* `exists_audit` and `check_total`: an audit comes through on any bytes.
* `holds_of_check` and `check_of_holds`: an empty report means that there is a plan
  (`check_eq_nil_iff_holds`). As far as links reach, these are the settled heaps
  (`check_eq_nil_iff`).
-/

namespace BoundaryTag

open Extent

namespace FreeLists

variable {l : FreeLists} {r : Region} {lo : Nat} {classes visited free : List Nat}
  {lists : Nat → List Nat}

/-! ## All threads -/

def threadAt (l : FreeLists) (r : Region) (lists : Nat → List Nat) (k : Nat) : Thread :=
  ⟨k, l.sentinelAt k, (lists k).map (l.nodeAt r), .done⟩

theorem threadsFrom_cons {k : Nat} (hk : k < SizeClass.count) (hs : l.Spot r (l.sentinelAt k)) :
    l.threadsFrom r lo visited (k :: classes) = (do
      let (nodes, stop) ← l.follow r lo visited (l.links.linkAt r (l.sentinelAt k + 4))
      let rest ← l.threadsFrom r lo (nodes.map ThreadNode.addr ++ visited) classes
      return ⟨k, l.sentinelAt k, nodes, stop⟩ :: rest) := by
  rw [threadsFrom, sentinel_eq hk hs, Fault.ok_bind, Links.next_eq hs.base_lt hs.2.2, Fault.ok_bind]

theorem map_addr_nodeAt (nodes : List Nat) :
    (nodes.map (l.nodeAt r)).map ThreadNode.addr = nodes := by
  rw [List.map_map]
  exact List.map_id nodes

theorem threadsFrom_eq (hk : ∀ k ∈ classes, k < SizeClass.count)
    (hs : ∀ k ∈ classes, l.Spot r (l.sentinelAt k))
    (hstrung : ∀ k ∈ classes, l.Strung r (l.sentinelAt k) (lists k))
    (hspot : ∀ k ∈ classes, ∀ x ∈ lists k, lo + 8 ≤ x ∧ x + 8 ≤ r.size)
    (hnd : (classes.flatMap lists).Nodup)
    (hvis : ∀ k ∈ classes, ∀ x ∈ lists k, x ∉ visited) :
    l.threadsFrom r lo visited classes = .ok (classes.map (l.threadAt r lists)) := by
  induction classes generalizing visited with
  | nil => rfl
  | cons k classes ih =>
      rw [List.flatMap_cons, List.nodup_append] at hnd
      rcases hnd with ⟨hndk, hnd', hdis⟩
      have hhead := hs k List.mem_cons_self
      have hfollow := follow_eq (hstrung k List.mem_cons_self) hhead.base_lt
        (hspot k List.mem_cons_self) hndk (hvis k List.mem_cons_self)
      -- the other lists share no block with this one, which now counts as visited
      have hvis' : ∀ j ∈ classes, ∀ x ∈ lists j, x ∉ lists k ++ visited := by
        intro j hj x hx hxv
        rcases List.mem_append.1 hxv with hxv | hxv
        · exact hdis x hxv x (List.mem_flatMap.2 ⟨j, hj, hx⟩) rfl
        · exact hvis j (List.mem_cons_of_mem _ hj) x hx hxv
      have hrest := ih (fun j hj => hk j (List.mem_cons_of_mem _ hj))
        (fun j hj => hs j (List.mem_cons_of_mem _ hj))
        (fun j hj => hstrung j (List.mem_cons_of_mem _ hj))
        (fun j hj => hspot j (List.mem_cons_of_mem _ hj)) hnd' hvis'
      rw [threadsFrom_cons (hk k List.mem_cons_self) hhead, hfollow, Fault.ok_bind]
      simp only
      rw [map_addr_nodeAt, hrest, Fault.ok_bind]
      rfl

/-- What the walks along the lists of some classes come to, one after the other. The blocks of a
thread count as visited in all that follow it. -/
inductive Trails (l : FreeLists) (r : Region) (lo : Nat) :
    List Nat → List Nat → List Thread → Prop where
  | nil {visited : List Nat} : Trails l r lo visited [] []
  | cons {visited : List Nat} {k : Nat} {classes : List Nat} {nodes : List ThreadNode}
      {stop : ThreadEnd} {rest : List Thread}
      (trail : l.Trail r lo visited (l.links.linkAt r (l.sentinelAt k + 4)) nodes stop)
      (more : Trails l r lo (nodes.map ThreadNode.addr ++ visited) classes rest) :
      Trails l r lo visited (k :: classes) (⟨k, l.sentinelAt k, nodes, stop⟩ :: rest)

/-- The walks along all lists end on any bytes. -/
theorem exists_trails (hk : ∀ k ∈ classes, k < SizeClass.count)
    (hs : ∀ k ∈ classes, l.Spot r (l.sentinelAt k)) :
    ∃ ts, l.threadsFrom r lo visited classes = .ok ts ∧ l.Trails r lo visited classes ts := by
  induction classes generalizing visited with
  | nil => exact ⟨[], rfl, .nil⟩
  | cons k classes ih =>
      have hhead := hs k List.mem_cons_self
      have hfollow : ∃ nodes stop,
          l.follow r lo visited (l.links.linkAt r (l.sentinelAt k + 4)) = .ok (nodes, stop)
            ∧ l.Trail r lo visited (l.links.linkAt r (l.sentinelAt k + 4)) nodes stop :=
        exists_trail hhead.base_lt fun b hb => linkAt_lt hhead.base_lt hb
      rcases hfollow with ⟨nodes, stop, hfollow, htrail⟩
      have hrest : ∃ ts, l.threadsFrom r lo (nodes.map ThreadNode.addr ++ visited) classes = .ok ts
          ∧ l.Trails r lo (nodes.map ThreadNode.addr ++ visited) classes ts :=
        ih (fun j hj => hk j (List.mem_cons_of_mem _ hj))
          fun j hj => hs j (List.mem_cons_of_mem _ hj)
      rcases hrest with ⟨ts, hts, htrails⟩
      refine ⟨_, ?_, .cons htrail htrails⟩
      rw [threadsFrom_cons (hk k List.mem_cons_self) hhead, hfollow, Fault.ok_bind]
      simp only
      rw [hts, Fault.ok_bind]
      rfl

/-- Threads that break no rule are those of lists which share no block. -/
theorem lists_of_violations {ts : List Thread} (hclasses : classes.Nodup)
    (h : l.Trails r lo visited classes ts) (hv : ∀ t ∈ ts, t.violations free = []) :
    ∃ lists, ts = classes.map (l.threadAt r lists)
      ∧ (∀ k ∈ classes, l.Strung r (l.sentinelAt k) (lists k))
      ∧ (classes.flatMap lists).Nodup
      ∧ (∀ k ∈ classes, ∀ x ∈ lists k, x ∉ visited ∧ Placed r k free x)
      ∧ ∀ k, k ∉ classes → lists k = [] := by
  induction h with
  | nil => exact ⟨fun _ => [], rfl, nofun, List.nodup_nil, nofun, fun _ _ => rfl⟩
  | @cons visited k classes ns stop rest trail more ih =>
      rcases List.nodup_cons.1 hclasses with ⟨hkc, hclasses'⟩
      rcases threads_of_violations trail (hv _ List.mem_cons_self) with
        ⟨nodes, rfl, rfl, hthreads, hnd, hnodes⟩
      rcases ih hclasses' (fun t ht => hv t (List.mem_cons_of_mem _ ht)) with
        ⟨lists, rfl, hstrung, hnd', hplaced, hnone⟩
      rw [map_addr_nodeAt] at hplaced
      -- the list of this class comes on top of the others
      have hupdate : ∃ lists' : Nat → List Nat,
          lists' k = nodes ∧ ∀ j, j ≠ k → lists' j = lists j :=
        ⟨fun j => if j = k then nodes else lists j, if_pos rfl, fun j hj => if_neg hj⟩
      rcases hupdate with ⟨lists', hself, hother⟩
      have hold : ∀ j ∈ classes, lists' j = lists j := by
        intro j hj
        exact hother j fun hjk => hkc (hjk ▸ hj)
      have hflat : classes.flatMap lists' = classes.flatMap lists := by
        rw [List.flatMap_def, List.flatMap_def, List.map_congr_left hold]
      have hmap : classes.map (l.threadAt r lists') = classes.map (l.threadAt r lists) :=
        List.map_congr_left fun j hj => by rw [threadAt, threadAt, hold j hj]
      refine ⟨lists', ?_, fun j hj => ?_, ?_, fun j hj x hx => ?_, fun j hj => ?_⟩
      · rw [List.map_cons, hmap, threadAt, hself]
      · rcases List.mem_cons.1 hj with rfl | hj
        · rw [hself]
          exact hthreads
        · rw [hold j hj]
          exact hstrung j hj
      · rw [List.flatMap_cons, hself, hflat]
        refine List.nodup_append.2 ⟨hnd, hnd', fun x hx y hy hxy => ?_⟩
        rcases List.mem_flatMap.1 hy with ⟨j, hj, hyj⟩
        exact (hplaced j hj y hyj).1 (List.mem_append_left _ (hxy ▸ hx))
      · rcases List.mem_cons.1 hj with rfl | hj
        · rw [hself] at hx
          exact hnodes x hx
        · rw [hold j hj] at hx
          rcases hplaced j hj x hx with ⟨hxv, hxp⟩
          exact ⟨fun hm => hxv (List.mem_append_right _ hm), hxp⟩
      · rw [hother j fun hjk => hj (hjk ▸ List.mem_cons_self)]
        exact hnone j fun hm => hj (List.mem_cons_of_mem _ hm)

end FreeLists

/-! ## Free blocks -/

namespace Extent

variable {a x : Nat} {es : List Extent}

def freeAddrs (a : Nat) (es : List Extent) : List Nat :=
  ((located a es).filter fun q => !q.2.allocated).map Prod.fst

theorem mem_freeAddrs : x ∈ freeAddrs a es ↔ ∃ n, (x, ⟨n, false⟩) ∈ located a es := by
  rw [freeAddrs, List.mem_map]
  constructor
  · rintro ⟨⟨y, ⟨n, b⟩⟩, hy, rfl⟩
    rcases List.mem_filter.1 hy with ⟨hmem, hb⟩
    have hb : b = false := by simpa using hb
    subst hb
    exact ⟨n, hmem⟩
  · rintro ⟨n, hn⟩
    exact ⟨(x, ⟨n, false⟩), List.mem_filter.2 ⟨hn, rfl⟩, rfl⟩

theorem freeAddrs_nodup (hl : Large es) : (freeAddrs a es).Nodup :=
  (located_nodup hl).sublist (List.filter_sublist.map Prod.fst)

end Extent

theorem Region.Chained.freeBlocks_eq {r : Region} {bp : Nat} {p : Bool} {es : List Extent}
    {stop : ChainEnd} (h : r.Chained bp p es) :
    Chain.freeBlocks ⟨r.blocksAt bp es, stop⟩ = freeAddrs bp es := by
  have hfree : ∀ q ∈ located bp es,
      (ChainBlock.isFree ∘ fun q : Nat × Extent => r.blockAt q.1) q = !q.2.allocated := by
    rintro ⟨x, e⟩ hx
    rcases h.tagged.at hx with ⟨q, ht⟩
    rw [Function.comp_apply, isFree_blockAt, ht.allocated]
  have haddr : (ChainBlock.addr ∘ fun q : Nat × Extent => r.blockAt q.1) = Prod.fst := by
    funext q
    rw [Function.comp_apply, addr_blockAt]
  rw [Chain.freeBlocks, blocksAt, List.filter_map, List.map_map, freeAddrs, haddr,
    List.filter_congr hfree]

/-! ## The report -/

namespace Heap

variable {h : Heap} {es : List Extent} {lists : Nat → List Nat}

/-- What an audit sees of a heap with these blocks and lists. -/
def surveyOf (h : Heap) (es : List Extent) (lists : Nat → List Nat) : Survey :=
  ⟨h.lo, h.region.size, h.prologue, h.region.tagAt h.prologue,
    h.region.word (h.lo + prologueSize),
    ⟨h.region.blocksAt (h.lo + frameSize) es,
      .epilogue h.region.size (h.region.tagAt h.region.size)⟩,
    (List.range SizeClass.count).map (h.lists.threadAt h.region lists)⟩

theorem listed_eq {s : Survey}
    (ht : s.threads = (List.range SizeClass.count).map (h.lists.threadAt h.region lists)) :
    s.listed = ((List.range SizeClass.count).flatMap lists).length := by
  have hflat : ∀ classes : List Nat,
      ((classes.map (h.lists.threadAt h.region lists)).flatMap Thread.nodes).length
        = (classes.flatMap lists).length := by
    intro classes
    induction classes with
    | nil => rfl
    | cons k classes ih =>
        rw [List.map_cons, List.flatMap_cons, List.flatMap_cons, List.length_append,
          List.length_append, ih, FreeLists.threadAt, List.length_map]
  rw [Survey.listed, ht, hflat]

/-- The free blocks of a heap that holds a plan are the listed ones. -/
theorem flatMap_perm (hs : h.region.Holds ⟨h.lo, es, lists⟩) :
    ((List.range SizeClass.count).flatMap lists).Nodup
      ∧ ((List.range SizeClass.count).flatMap lists).Perm (freeAddrs (h.lo + frameSize) es) := by
  have hlarge : Large es := hs.chained.tagged.large
  have hclass : ∀ x k, x ∈ lists k → ∃ n, (x, ⟨n, false⟩) ∈ located (h.lo + frameSize) es
      ∧ SizeClass.of n = k := by
    intro x k hx
    rcases hs.listed.located hx with ⟨n, hn, hk, -⟩
    exact ⟨n, hn, hk⟩
  have hnd : ∀ classes : List Nat, classes.Nodup → (∀ k ∈ classes, k < SizeClass.count) →
      (classes.flatMap lists).Nodup := by
    intro classes
    induction classes with
    | nil => exact fun _ _ => List.nodup_nil
    | cons k classes ih =>
        intro hc hk
        rcases List.nodup_cons.1 hc with ⟨hkc, hc'⟩
        refine List.nodup_append.2 ⟨?_, ih hc' fun j hj => hk j (List.mem_cons_of_mem _ hj), ?_⟩
        · exact hs.once k
        · rintro x hx y hy rfl
          rcases List.mem_flatMap.1 hy with ⟨j, hj, hxj⟩
          rcases hclass x k hx with ⟨n, hn, rfl⟩
          rcases hclass x j hxj with ⟨m, hm, rfl⟩
          -- there is one block at an address, which has one size and one class
          have hn16 : 16 ≤ n := hlarge.size hn
          rcases located_inside hlarge hn hm (Nat.le_refl x) (by simp only; omega) with ⟨-, heq⟩
          cases heq
          exact hkc hj
  have hflat := hnd _ List.nodup_range fun k hk => List.mem_range.1 hk
  refine ⟨hflat, (List.perm_ext_iff_of_nodup hflat (freeAddrs_nodup hlarge)).2 fun x => ?_⟩
  rw [List.mem_flatMap, mem_freeAddrs]
  constructor
  · rintro ⟨k, -, hx⟩
    rcases hclass x k hx with ⟨n, hn, -⟩
    exact ⟨n, hn⟩
  · rintro ⟨n, hn⟩
    refine ⟨SizeClass.of n, List.mem_range.2 (SizeClass.of_lt_count n), ?_⟩
    exact (hs.listed _ x).2 ⟨by omega, n, hn, rfl⟩

/-- The threads of a heap with a frame can be followed on any bytes. -/
theorem exists_threads (hlo : h.lo + frameSize ≤ h.region.size) :
    ∃ ts, h.lists.threads h.region h.lo = .ok ts
      ∧ h.lists.Trails h.region h.lo [] (List.range SizeClass.count) ts :=
  FreeLists.exists_trails (fun _ hk => List.mem_range.1 hk)
    fun _ hk => FreeLists.spot_sentinel hlo (List.mem_range.1 hk)

theorem trails_of_threads {ts : List Thread} (hlo : h.lo + frameSize ≤ h.region.size)
    (ht : h.lists.threads h.region h.lo = .ok ts) :
    h.lists.Trails h.region h.lo [] (List.range SizeClass.count) ts := by
  rcases exists_threads hlo with ⟨ts', ht', htrails⟩
  exact Except.ok.inj (ht'.symm.trans ht) ▸ htrails

/-- The audit of a heap that holds a plan. -/
theorem audit_of_holds (hs : h.region.Holds ⟨h.lo, es, lists⟩) :
    h.audit = .ok (.survey (h.surveyOf es lists)) := by
  have hle : h.lo + 128 ≤ h.region.size := hs.chained.le_size
  have hpro : h.region.header h.prologue = .ok (h.region.tagAt h.prologue) :=
    Region.header_eq (by show 4 ≤ h.lo + 8; omega) (by show h.lo + 8 ≤ _; omega)
  have hfoot : h.region.read (h.prologue + prologueSize - 8)
      = .ok (h.region.word (h.lo + prologueSize)) := by
    have haddr : h.prologue + prologueSize - 8 = h.lo + prologueSize := by
      show h.lo + 8 + 120 - 8 = h.lo + 120
      omega
    rw [haddr, Region.read_eq]
    show h.lo + 120 + 4 ≤ _
    omega
  have hstart : h.prologue + prologueSize = h.lo + frameSize := by
    show h.lo + 8 + 120 = h.lo + 128
    omega
  have hguard : (h.region.tagAt h.prologue).size = prologueSize
      ∧ (h.region.tagAt h.prologue).allocated = true := hs.prologue
  -- the walk over headers comes through the blocks of the plan, and each walk through a list
  -- through those of its class
  have hchain := hs.chained.chain_eq (by show 4 ≤ h.lo + 128; omega)
  have hclass : ∀ k ∈ List.range SizeClass.count, k < SizeClass.count :=
    fun k hk => List.mem_range.1 hk
  have hspot : ∀ k, ∀ x ∈ lists k, h.lo + 8 ≤ x ∧ x + 8 ≤ h.region.size := by
    intro k x hx
    rcases hs.listed.located hx with ⟨n, hn, -, -⟩
    have hb := located_bounds hn
    have hn16 := hs.chained.tagged.large.size hn
    rw [hs.chained.stop_eq] at hb
    simp only [frameSize] at hb hn16
    omega
  have hthreads : h.lists.threads h.region h.lo
      = .ok ((List.range SizeClass.count).map (h.lists.threadAt h.region lists)) :=
    FreeLists.threadsFrom_eq hclass (fun k hk => FreeLists.spot_sentinel hle (hclass k hk))
      (fun k hk => hs.threads k (hclass k hk)) (fun k _ => hspot k) (flatMap_perm hs).1
      (fun _ _ _ _ => List.not_mem_nil)
  rw [audit, hpro, Fault.ok_bind, if_pos hguard, hfoot, Fault.ok_bind, hstart, hchain,
    Fault.ok_bind, hthreads, Fault.ok_bind]
  rfl

/-- The audit of a heap that holds a plan finds no broken rule. -/
theorem violations_of_holds (hs : h.region.Holds ⟨h.lo, es, lists⟩) :
    (h.surveyOf es lists).violations = [] := by
  have hpro : (h.surveyOf es lists).prologueViolations = [] := if_pos hs.footer
  have hchain : (h.surveyOf es lists).chain.violations h.region.size h.prologue = [] :=
    hs.chained.violations_eq_nil (p := false) hs.tidy (by
      have := h.aligned
      show (h.lo + 128) % 8 = 0
      omega)
  have hfree : (h.surveyOf es lists).chain.freeBlocks = freeAddrs (h.lo + frameSize) es :=
    hs.chained.freeBlocks_eq
  have hthreads : (h.surveyOf es lists).threads.flatMap
      (Thread.violations · (h.surveyOf es lists).chain.freeBlocks) = [] := by
    rw [List.flatMap_eq_nil_iff, hfree]
    intro t ht
    rcases List.mem_map.1 ht with ⟨k, hk, rfl⟩
    refine FreeLists.violationsFrom_eq_nil (hs.threads k (List.mem_range.1 hk)) fun x hx => ?_
    rcases hs.listed.located hx with ⟨n, hn, hk, -⟩
    rcases hs.chained.tagged.at hn with ⟨p, htag⟩
    exact ⟨htag.allocated, mem_freeAddrs.2 ⟨n, hn⟩, by rw [htag.size]; exact hk⟩
  have hcount : (h.surveyOf es lists).countViolations = [] := by
    refine if_pos ?_
    rw [hfree, listed_eq (h := h) rfl, (flatMap_perm hs).2.length_eq]
  have hprologue : (h.surveyOf es lists).prologue = h.prologue := rfl
  have htop : (h.surveyOf es lists).top = h.region.size := rfl
  rw [Survey.violations, hpro, hprologue, htop, hchain, hthreads, hcount]
  rfl

/-- The audit of a settled heap. -/
theorem audit_eq (hs : h.region.Settled h.lo es lists) :
    h.audit = .ok (.survey (h.surveyOf es lists)) :=
  audit_of_holds hs.holds

/-- As many free blocks as listed ones, all of which are free: all free blocks are listed. -/
theorem mem_of_length_eq {nodes free : List Nat} {x : Nat} (hnd : nodes.Nodup)
    (hsub : ∀ y ∈ nodes, y ∈ free) (hlen : free.length = nodes.length) (hx : x ∈ free) :
    x ∈ nodes := by
  refine Classical.byContradiction fun hxn => ?_
  -- otherwise the listed ones would fit into one place less
  have hsub' : nodes ⊆ free.erase x := by
    intro y hy
    refine (List.mem_erase_of_ne fun hyx => hxn ?_).2 (hsub y hy)
    rw [← hyx]
    exact hy
  have hle := hnd.length_le_of_subset hsub'
  have hpos := List.length_pos_of_mem hx
  rw [List.length_erase_of_mem hx] at hle
  omega

/-- Lists of free blocks in their places which are as many as the free blocks list them all. -/
theorem listed_of_placed (hchain : h.region.Chained (h.lo + frameSize) false es)
    (hnd : ((List.range SizeClass.count).flatMap lists).Nodup)
    (hplaced : ∀ k ∈ List.range SizeClass.count, ∀ x ∈ lists k,
      FreeLists.Placed h.region k (freeAddrs (h.lo + frameSize) es) x)
    (hnone : ∀ k, k ∉ List.range SizeClass.count → lists k = [])
    (hlen : (freeAddrs (h.lo + frameSize) es).length
      = ((List.range SizeClass.count).flatMap lists).length) :
    Listed (h.lo + frameSize) es lists 0 0 := by
  have hsize : ∀ x n, (x, ⟨n, false⟩) ∈ located (h.lo + frameSize) es →
      (h.region.tagAt x).size = n := by
    intro x n hn
    rcases hchain.tagged.at hn with ⟨p, ht⟩
    exact ht.size
  intro k x
  constructor
  · intro hx
    have hk : k ∈ List.range SizeClass.count := Classical.byContradiction fun hk => by
      rw [hnone k hk] at hx
      cases hx
    have hp := hplaced k hk x hx
    rcases mem_freeAddrs.1 hp.mem with ⟨n, hn⟩
    exact ⟨by omega, n, hn, hsize x n hn ▸ hp.size⟩
  · -- a free block is in some list, and that is the one for its size
    rintro ⟨-, n, hn, rfl⟩
    have hsub : ∀ y ∈ (List.range SizeClass.count).flatMap lists,
        y ∈ freeAddrs (h.lo + frameSize) es := by
      intro y hy
      rcases List.mem_flatMap.1 hy with ⟨j, hj, hyj⟩
      exact (hplaced j hj y hyj).mem
    have hx := mem_of_length_eq hnd hsub hlen (mem_freeAddrs.2 ⟨n, hn⟩)
    rcases List.mem_flatMap.1 hx with ⟨j, hj, hxj⟩
    have hj' := (hplaced j hj x hxj).size
    rw [hsize x n hn] at hj'
    exact hj' ▸ hxj

/-- What an audit that gets past the prologue has read. -/
theorem audit_eq_survey {s : Survey} (ha : h.audit = .ok (.survey s)) :
    ((h.region.tagAt (h.lo + 8)).size = prologueSize
        ∧ (h.region.tagAt (h.lo + 8)).allocated = true)
      ∧ s.top = h.region.size ∧ s.prologue = h.prologue ∧ s.tag = h.region.tagAt (h.lo + 8)
      ∧ s.footer = h.region.word (h.lo + prologueSize)
      ∧ h.region.chain (h.lo + frameSize) = .ok s.chain
      ∧ h.lists.threads h.region h.lo = .ok s.threads := by
  rw [audit] at ha
  rcases Fault.bind_eq_ok.1 ha with ⟨t, hhead, ha⟩
  rcases Region.header_eq_ok hhead with ⟨-, -, rfl⟩
  by_cases hguard : (h.region.tagAt h.prologue).size = prologueSize
      ∧ (h.region.tagAt h.prologue).allocated = true
  case neg =>
    rw [if_neg hguard] at ha
    cases ha
  -- with a sound prologue the audit reads on
  rw [if_pos hguard] at ha
  rcases Fault.bind_eq_ok.1 ha with ⟨footer, hfoot, ha⟩
  rcases Fault.bind_eq_ok.1 ha with ⟨c, hchain, ha⟩
  rcases Fault.bind_eq_ok.1 ha with ⟨ts, hthreads, ha⟩
  cases ha
  have haddr : h.prologue + prologueSize - 8 = h.lo + prologueSize := by
    simp only [prologue, prologueSize]
    omega
  have hstart : h.prologue + prologueSize = h.lo + frameSize := by
    simp only [prologue, prologueSize, frameSize]
  rw [hstart] at hchain
  rw [haddr, Region.read] at hfoot
  split at hfoot
  case isFalse => cases hfoot
  case isTrue =>
    cases hfoot
    exact ⟨hguard, rfl, rfl, rfl, rfl, hchain, hthreads⟩

/-- A heap in which an audit finds no broken rule holds a plan. -/
theorem holds_of_violations {s : Survey} (ha : h.audit = .ok (.survey s)) (hv : s.violations = []) :
    ∃ es lists, h.region.Holds ⟨h.lo, es, lists⟩ := by
  rcases audit_eq_survey ha with ⟨hpro, htop, -, htag, hfoot, hchain, hthreads⟩
  rw [Survey.violations, List.append_eq_nil_iff, List.append_eq_nil_iff,
    List.append_eq_nil_iff, htop] at hv
  rcases hv with ⟨⟨⟨hvpro, hvchain⟩, hvthreads⟩, hvcount⟩
  have h4 : 4 ≤ h.lo + frameSize := by
    simp only [frameSize]
    omega
  rcases Region.chained_of_violations (p := false) (Region.walk_of_chain h4 hchain) hvchain with
    ⟨es, hchained, htidy⟩
  have hle : h.lo + frameSize ≤ h.region.size := hchained.le_size
  have hfree : s.chain.freeBlocks = freeAddrs (h.lo + frameSize) es := by
    rw [hchained.chain_eq h4] at hchain
    rw [← Except.ok.inj hchain]
    exact hchained.freeBlocks_eq
  rcases FreeLists.lists_of_violations List.nodup_range (trails_of_threads hle hthreads)
    (fun t ht => (List.flatMap_eq_nil_iff.1 hvthreads) t ht) with
    ⟨lists, hmap, hstrung, hnd, hplaced, hnone⟩
  -- the last rule compares how many are free with how many are listed
  have hlen : s.chain.freeBlocks.length = ((List.range SizeClass.count).flatMap lists).length := by
    rw [← listed_eq hmap]
    refine Classical.byContradiction fun hne => ?_
    rw [Survey.countViolations, if_neg hne] at hvcount
    cases hvcount
  have hfooter : h.region.word (h.lo + prologueSize) = (h.region.tagAt (h.lo + 8)).word := by
    refine Classical.byContradiction fun hne => ?_
    rw [Survey.prologueViolations, hfoot, htag, if_neg hne] at hvpro
    cases hvpro
  rw [hfree] at hlen
  have hlisted := listed_of_placed hchained hnd
    (fun k hk x hx => hfree ▸ (hplaced k hk x hx).2) hnone hlen
  have honce : ∀ k, (lists k).Nodup := by
    intro k
    by_cases hk : k ∈ List.range SizeClass.count
    · exact hnd.sublist (List.sublist_flatten_of_mem (List.mem_map.2 ⟨k, hk, rfl⟩))
    · rw [hnone k hk]
      exact List.nodup_nil
  exact ⟨es, lists, hpro, hfooter, Region.carries_iff.2 ⟨hchained, htidy⟩,
    fun k hk => hstrung k (List.mem_range.2 hk), honce, Region.listed_iff.1 hlisted⟩

/-- An audit of a heap with a frame comes through, whatever the bytes are. -/
theorem exists_audit (hlo : h.lo + frameSize ≤ h.region.size) : ∃ a, h.audit = .ok a := by
  have hpro : h.region.header h.prologue = .ok (h.region.tagAt h.prologue) := by
    simp only [frameSize] at hlo
    exact Region.header_eq (by simp only [prologue]; omega) (by simp only [prologue]; omega)
  have hfoot : ∃ w, h.region.read (h.prologue + prologueSize - 8) = .ok w := by
    simp only [frameSize] at hlo
    exact ⟨_, Region.read_eq (by simp only [prologue, prologueSize]; omega)⟩
  have hchain : ∃ c, h.region.chain (h.prologue + prologueSize) = .ok c ∧ _ :=
    Region.exists_walk (by simp only [prologueSize]; omega)
  rcases hfoot with ⟨w, hfoot⟩
  rcases hchain with ⟨c, hchain, -⟩
  rcases exists_threads hlo with ⟨ts, hthreads, -⟩
  rw [audit, hpro, Fault.ok_bind]
  split
  · rw [hfoot, Fault.ok_bind, hchain, Fault.ok_bind, hthreads]
    exact ⟨_, rfl⟩
  · exact ⟨_, rfl⟩

theorem check_total (hlo : h.lo + frameSize ≤ h.region.size) : ∃ vs, h.check = .ok vs := by
  rcases exists_audit hlo with ⟨a, ha⟩
  refine ⟨a.violations, ?_⟩
  rw [check, ha, Fault.ok_bind, Fault.pure_eq_ok]

/-- A heap that passes its check holds a plan. -/
theorem holds_of_check (hc : h.check = .ok []) : ∃ es lists, h.region.Holds ⟨h.lo, es, lists⟩ := by
  rcases Fault.bind_eq_ok.1 hc with ⟨a, ha, hv⟩
  cases a with
  | rootless prologue => cases hv
  | survey s => exact holds_of_violations ha (Except.ok.inj hv)

/-- A heap that holds a plan passes its check. -/
theorem check_of_holds (hs : h.region.Holds ⟨h.lo, es, lists⟩) : h.check = .ok [] := by
  rw [check, audit_of_holds hs, Fault.ok_bind]
  exact congrArg Except.ok (violations_of_holds hs)

/-- The check is empty exactly if there is a plan that the heap holds. -/
theorem check_eq_nil_iff_holds :
    h.check = .ok [] ↔ ∃ p : Plan, p.lo = h.lo ∧ h.region.Holds p := by
  constructor
  · intro hc
    rcases holds_of_check hc with ⟨es, lists, hp⟩
    exact ⟨⟨h.lo, es, lists⟩, rfl, hp⟩
  · rintro ⟨⟨lo, es, lists⟩, rfl, hp⟩
    exact check_of_holds hp

/-- The check of a heap whose links reach everything is empty exactly if the heap is settled. -/
theorem check_eq_nil_iff (hspan : h.region.size - h.lo < 0x100000000) :
    h.check = .ok [] ↔ ∃ es lists, h.region.Settled h.lo es lists := by
  constructor
  · intro hc
    rcases holds_of_check hc with ⟨es, lists, hs⟩
    exact ⟨es, lists, (Region.holds_iff h.aligned hspan).1 hs⟩
  · rintro ⟨es, lists, hs⟩
    exact check_of_holds hs.holds

end Heap

end BoundaryTag
