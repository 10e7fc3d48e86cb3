import BoundaryTag.Proofs.Progress
import BoundaryTag.Proofs.Separation
import Mathlib.Algebra.BigOperators.Ring.Nat

/-!
# Accounting — what the statistics of a heap add up to

Counting the blocks of a heap comes to the same as looking at its live pointers and at its lists.

* `Stats.bytes_add`: a block is counted once, and `Chained.bytes_foldl`: so what was counted is the
  way from the first block to the end.
* `Chain.foldl_add`: which blocks were counted as in use, and which as free.
* `Client.Reaches.accounted`: in every state that a client reaches, frame and blocks fill the heap,
  the blocks in use are those of the live pointers, and the free ones are those in the lists.
-/

namespace BoundaryTag

open Extent

/-! ## Counting -/

namespace Stats

/-- A block is counted once, whether it is in use or free. -/
theorem bytes_add (s : Stats) (t : Tag) :
    (s.add t).allocatedBytes + (s.add t).freeBytes
      = s.allocatedBytes + s.freeBytes + t.size := by
  unfold add
  split
  · exact Nat.add_right_comm _ _ _
  · exact (Nat.add_assoc _ _ _).symm

end Stats

/-- The sizes of the blocks add up to the way from the first to the end. -/
theorem Region.Chained.bytes_foldl {r : Region} {bp : Nat} {p : Bool} {es : List Extent}
    (h : r.Chained bp p es) (s : Stats) :
    bp + (((r.blocksAt bp es).foldl (fun s b => s.add b.tag) s).allocatedBytes
        + ((r.blocksAt bp es).foldl (fun s b => s.add b.tag) s).freeBytes)
      = stop bp es + (s.allocatedBytes + s.freeBytes) := by
  induction es generalizing bp p s with
  | nil => rfl
  | cons e es ih =>
      have hsize : (r.tagAt bp).size = e.size := h.tagged.1.size
      have hrest := ih h.tail (s.add (r.tagAt bp))
      rw [Stats.bytes_add, hsize] at hrest
      rw [stop_cons]
      show bp + ((List.foldl _ (s.add (r.tagAt bp)) (r.blocksAt (bp + e.size) es)).allocatedBytes
        + (List.foldl _ (s.add (r.tagAt bp)) (r.blocksAt (bp + e.size) es)).freeBytes) = _
      omega

namespace Chain

variable {b : ChainBlock} {blocks : List ChainBlock} {stop : ChainEnd}

theorem usedBlocks_cons : usedBlocks ⟨b :: blocks, stop⟩
      = if b.tag.allocated then b.addr :: usedBlocks ⟨blocks, stop⟩
        else usedBlocks ⟨blocks, stop⟩ := by
  show (List.filter _ (b :: blocks)).map ChainBlock.addr = _
  rw [List.filter_cons]
  split
  · rfl
  · rfl

/-- The blocks in use are counted apart from the free ones. -/
theorem foldl_add {r : Region} (stop : ChainEnd) (s : Stats)
    (htag : ∀ b ∈ blocks, b.tag = r.tagAt b.addr) :
    blocks.foldl (fun s b => s.add b.tag) s
      = ⟨s.heapSize, s.allocatedBlocks + (usedBlocks ⟨blocks, stop⟩).length,
          s.allocatedBytes + ((usedBlocks ⟨blocks, stop⟩).map fun a => (r.tagAt a).size).sum,
          s.freeBlocks + (freeBlocks ⟨blocks, stop⟩).length,
          s.freeBytes + ((freeBlocks ⟨blocks, stop⟩).map fun a => (r.tagAt a).size).sum⟩ := by
  induction blocks generalizing s with
  | nil => rfl
  | cons b blocks ih =>
      have hb : b.tag = r.tagAt b.addr := htag b List.mem_cons_self
      have hrest := ih (s.add b.tag) fun b hb => htag b (List.mem_cons_of_mem _ hb)
      rw [List.foldl_cons, hrest, usedBlocks_cons, freeBlocks_cons, Stats.add]
      split
      · rw [List.length_cons, List.map_cons, List.sum_cons, ← hb, Nat.add_assoc, Nat.add_assoc,
          Nat.add_comm 1]
      · rw [List.length_cons, List.map_cons, List.sum_cons, ← hb, Nat.add_assoc, Nat.add_assoc,
          Nat.add_comm 1]

end Chain

namespace Heap

variable {h : Heap} {es : List Extent} {lists : Nat → List Nat}

/-- The nodes of all threads are the listed blocks. -/
theorem nodes_surveyOf : (h.surveyOf es lists).threads.flatMap Thread.nodes
    = ((List.range SizeClass.count).flatMap lists).map (h.lists.nodeAt h.region) := by
  show ((List.range SizeClass.count).map (h.lists.threadAt h.region lists)).flatMap _ = _
  rw [List.flatMap_map, List.map_flatMap]
  rfl

/-- The statistics of a heap, by its blocks. -/
theorem stats_surveyOf (hs : h.region.Settled h.lo es lists) :
    h.stats = .ok
      ⟨h.region.size - h.lo, (h.surveyOf es lists).chain.usedBlocks.length,
        ((h.surveyOf es lists).chain.usedBlocks.map fun a => (h.region.tagAt a).size).sum,
        (h.surveyOf es lists).chain.freeBlocks.length,
        ((h.surveyOf es lists).chain.freeBlocks.map fun a => (h.region.tagAt a).size).sum⟩ := by
  have htag : ∀ b ∈ (h.surveyOf es lists).chain.blocks, b.tag = h.region.tagAt b.addr := by
    intro b hb
    rcases List.mem_map.1 hb with ⟨q, -, rfl⟩
    rfl
  rw [stats_eq hs]
  refine congrArg Except.ok ((Chain.foldl_add (h.surveyOf es lists).chain.stop _ htag).trans ?_)
  simp only [Nat.zero_add]

/-- The frame and the blocks of a heap fill it. -/
theorem bytes_stats {stats : Stats} (hs : h.region.Settled h.lo es lists)
    (hstats : h.stats = .ok stats) :
    stats.heapSize + h.lo = h.region.size
      ∧ stats.heapSize = frameSize + stats.allocatedBytes + stats.freeBytes := by
  have hbytes := hs.drawn.chained.bytes_foldl ⟨h.region.size - h.lo, 0, 0, 0, 0⟩
  have hle := hs.drawn.le_size
  have hsize : stats.heapSize = h.region.size - h.lo := by
    rw [stats_surveyOf hs] at hstats
    cases hstats
    rfl
  rw [stats_eq hs] at hstats
  rw [hs.drawn.stop_eq, Except.ok.inj hstats] at hbytes
  simp only [frameSize] at *
  omega

end Heap

namespace Client

variable {source : Source} {config : Config} {c : Client}

/-- In every state that a client reaches, counting the blocks comes through. The frame and the
counted bytes fill the heap. The blocks in use are those of the live pointers, each of which has its
header and its payload, and the free blocks are those that the lists lead to. -/
theorem Reaches.accounted (hc : Reaches source config c) :
    ∃ (stats : Stats) (s : Survey) (usable : Nat → Nat),
      c.heap.stats = .ok stats ∧ c.heap.audit = .ok (.survey s)
      ∧ stats.heapSize + c.heap.lo = c.heap.region.size
      ∧ stats.heapSize = frameSize + stats.allocatedBytes + stats.freeBytes
      ∧ c.pointers.Nodup ∧ stats.allocatedBlocks = c.pointers.length
      ∧ (∀ p ∈ c.pointers, c.heap.usableSize p = .ok (usable p))
      ∧ stats.allocatedBytes = (c.pointers.map fun p => usable p + 4).sum
      ∧ s.threads.map Thread.index = List.range SizeClass.count
      ∧ (∀ t ∈ s.threads, t.stop = .done)
      ∧ ((s.threads.flatMap Thread.nodes).map ThreadNode.addr).Nodup
      ∧ stats.freeBlocks = (s.threads.flatMap Thread.nodes).length
      ∧ stats.freeBytes = ((s.threads.flatMap Thread.nodes).map fun n => n.tag.size).sum := by
  rcases hc.keeps with ⟨es, hk⟩
  rcases hk.settled with ⟨lists, hs⟩
  have hstats := Heap.stats_surveyOf hs
  rcases Heap.bytes_stats hs hstats with ⟨hsize, hfill⟩
  rcases Heap.flatMap_perm hs.holds with ⟨honce, hfree⟩
  have hgaps : (c.heap.surveyOf es lists).chain.freeBlocks = freeAddrs (c.heap.lo + frameSize) es :=
    hs.drawn.chained.freeBlocks_eq
  have hused : c.pointers.Perm (c.heap.surveyOf es lists).chain.usedBlocks :=
    Heap.usedBlocks_surveyOf hs ▸ hk.live.perm
  have hlisted : ((List.range SizeClass.count).flatMap lists).Perm
      (c.heap.surveyOf es lists).chain.freeBlocks :=
    hgaps.symm ▸ hfree
  -- what is usable of a block in use is all of it but the header
  have hpointer : ∀ p ∈ c.pointers,
      c.heap.usableSize p = .ok ((c.heap.region.tagAt p).size - 4)
        ∧ (c.heap.region.tagAt p).size - 4 + 4 = (c.heap.region.tagAt p).size := by
    intro p hp
    rcases exists_used hk hp with ⟨n, hn⟩
    rcases Heap.used_spec hs hn with ⟨-, -, -, h16, husable, -⟩
    rcases hs.drawn.tagsAt (mem_inUse.1 hn) with ⟨q, ht⟩
    have hsize : (c.heap.region.tagAt p).size = n := ht.size
    rw [hsize]
    exact ⟨husable, by omega⟩
  refine ⟨_, _, fun p => (c.heap.region.tagAt p).size - 4, hstats, Heap.audit_eq hs, hsize, hfill,
    pointers_nodup hk, hused.length_eq.symm, fun p hp => (hpointer p hp).1, ?_, ?_, ?_, ?_, ?_, ?_⟩
  · rw [List.map_congr_left fun p hp => (hpointer p hp).2]
    exact ((hused.map _).sum_nat).symm
  · show (List.map _ (List.range SizeClass.count)).map Thread.index = _
    rw [List.map_map]
    exact List.map_id _
  · intro t ht
    rcases List.mem_map.1 ht with ⟨k, -, rfl⟩
    rfl
  · rw [Heap.nodes_surveyOf, FreeLists.map_addr_nodeAt]
    exact honce
  · rw [Heap.nodes_surveyOf, List.length_map]
    exact hlisted.length_eq.symm
  · rw [Heap.nodes_surveyOf, List.map_map]
    exact ((hlisted.map _).sum_nat).symm

/-- Two blocks in use, and a free one after each of them. -/
theorem accounted_after_free :
    ∃ c, Reaches (.buffer 4096) ⟨64, 64⟩ c ∧ c.live = [(160, 12), (128, 12)]
      ∧ ∃ (stats : Stats) (s : Survey) (usable : Nat → Nat), stats = ⟨192, 2, 32, 2, 32⟩
        ∧ c.heap.stats = .ok stats ∧ c.heap.audit = .ok (.survey s)
        ∧ (∀ p ∈ [160, 128], c.heap.usableSize p = .ok (usable p))
        ∧ stats.allocatedBytes = ([160, 128].map fun p => usable p + 4).sum
        ∧ stats.freeBlocks = (s.threads.flatMap Thread.nodes).length
        ∧ stats.freeBytes = ((s.threads.flatMap Thread.nodes).map fun n => n.tag.size).sum := by
  have hrun : (runFrom (.buffer 4096) ⟨64, 64⟩ [.allocate 12, .allocate 12, .allocate 12,
      .free (some 144)]).map (fun c => (c.live, c.heap.stats.toOption))
        = some ([(160, 12), (128, 12)], some ⟨192, 2, 32, 2, 32⟩) := by
    decide +kernel
  rcases Option.map_eq_some_iff.1 hrun with ⟨c, hrun, hc⟩
  have hreach := reaches_iff.2 ⟨_, hrun⟩
  have hlive : c.live = [(160, 12), (128, 12)] := congrArg Prod.fst hc
  have hpointers : c.pointers = [160, 128] := by
    rw [pointers, hlive]
    rfl
  have hvalue := Fault.toOption_eq_some.1 (congrArg Prod.snd hc)
  rcases hreach.accounted with
    ⟨stats, s, usable, hstats, ha, -, -, -, -, husable, hbytes, -, -, -, hfree, hfreeBytes⟩
  rw [hpointers] at husable hbytes
  exact ⟨c, hreach, hlive, stats, s, usable, Except.ok.inj (hstats.symm.trans hvalue), hstats, ha,
    husable, hbytes, hfree, hfreeBytes⟩

end Client

end BoundaryTag
