import BoundaryTag.Proofs.EmptyReports
import BoundaryTag.Proofs.ClientInvariant

/-!
# Progress — calls by the rules come through

Whatever a client does by the rules, no operation of its heap stops half way: all bytes that it asks
for are there, its sums and sizes stay in range, links reach where they have to, and its loops end.

* `Chained.tally_eq`: counting the blocks of a heap goes over its chain once.
* `Settled.search_once`: a search looks at free blocks only, and at none of them twice.
* `Client.never_faults` puts this together for every state that a client reaches.
-/

namespace BoundaryTag

open Extent

/-! ## Counting -/

namespace Region

variable {r : Region} {lo bp : Nat} {p : Bool} {es : List Extent} {lists : Nat → List Nat}

theorem tally_step (h4 : 4 ≤ bp) (h : bp ≤ r.size) (s : Stats) :
    r.tally bp s = (if (r.tagAt bp).size = 0 then
      .ok s
    else do
      Address.fits (bp + (r.tagAt bp).size)
      r.tally (bp + (r.tagAt bp).size) (s.add (r.tagAt bp))) := by
  have hhead := header_eq h4 h
  rw [tally]
  split
  case h_1 e he => cases he.symm.trans hhead
  case h_2 t ht =>
    cases ht.symm.trans hhead
    split <;> rfl

/-- Every block of the chain is counted once. -/
theorem Chained.tally_eq (h4 : 4 ≤ bp) (h : r.Chained bp p es) (s : Stats) :
    r.tally bp s = .ok ((r.blocksAt bp es).foldl (fun s b => s.add b.tag) s) := by
  have hr := r.size_lt
  induction es generalizing bp p s with
  | nil =>
      have hend := h.ended
      rw [stop_nil] at hend
      rw [tally_step h4 (Nat.le_of_eq hend.top), if_pos hend.size]
      rfl
  | cons e es ih =>
      have he := h.tagged.1
      have hrest := h.tail
      have hl : 16 ≤ e.size := he.large
      have hle := hrest.le_size
      have hne : ¬(r.tagAt bp).size = 0 := by
        rw [he.size]
        omega
      rw [tally_step h4 (by omega), if_neg hne, he.size, Address.fits_eq (by omega), Fault.ok_bind,
        ih (by omega) hrest]
      rfl

/-! ## Searching -/

/-- A search comes to free blocks only, and to none of them twice. -/
theorem Settled.search_once (h : r.Settled lo es lists)
    (hnd : ((List.range SizeClass.count).flatMap lists).Nodup) (need : Nat) :
    ∃ seen answer, (FreeLists.at lo).search r need = .ok (seen, answer)
      ∧ (FreeLists.at lo).firstFit r need = .ok answer ∧ seen.Nodup
      ∧ ∀ a ∈ seen, a ∈ freeAddrs (lo + frameSize) es := by
  rcases h.holds.search_spec need with ⟨seen, hsearch, hsub⟩
  -- the search leaves out the classes of smaller blocks
  rw [← List.take_append_drop (SizeClass.of need) (List.range SizeClass.count), List.flatMap_append,
    List.nodup_append] at hnd
  refine ⟨seen, _, hsearch, h.holds.firstFit_eq need, hnd.2.1.sublist hsub, ?_⟩
  intro a ha
  rcases List.mem_flatMap.1 (hsub.subset ha) with ⟨k, -, hk⟩
  rcases h.listed.located hk with ⟨n, hn, -, -⟩
  exact mem_freeAddrs.2 ⟨n, hn⟩

end Region

namespace Heap

variable {h : Heap} {es : List Extent} {lists : Nat → List Nat}

theorem stats_eq (hs : h.region.Settled h.lo es lists) :
    h.stats = .ok ((h.region.blocksAt (h.lo + frameSize) es).foldl (fun s b => s.add b.tag)
      ⟨h.region.size - h.lo, 0, 0, 0, 0⟩) := by
  have hle := hs.drawn.le_size
  have hr := h.region.size_lt
  simp only [frameSize] at hle
  have hnext : h.region.next h.prologue = .ok (h.lo + frameSize) := by
    rw [Region.next_eq (by simp only [prologue]; omega) (by simp only [prologue]; omega), prologue,
      hs.drawn.prologue.1, Nat.add_assoc]
    rfl
  rw [stats, Address.sub_eq (by omega), Fault.ok_bind, hnext, Fault.ok_bind,
    hs.drawn.chained.tally_eq (by simp only [frameSize]; omega)]

end Heap

namespace Client

/-- Laying out a heap comes through, and in every state that a client reaches so does every call by
the rules, looking at a live payload, the check, and counting the blocks. Links reach the end of the
heap. Counting goes over the blocks of the chain once, and a search for a free block ends after
coming to some of the free ones, to each of them once. -/
theorem never_faults (source : Source) (config : Config) :
    (∃ result, Heap.layOut source config = .ok result)
      ∧ ∀ c, Reaches source config c →
        (∀ call, c.Allows call → ∃ d answer, c.step call = .ok (d, answer))
          ∧ (∀ p ∈ c.pointers, ∃ n bytes, c.heap.usableSize p = .ok n
              ∧ c.heap.payload p = .ok bytes ∧ bytes.size = n)
          ∧ c.heap.check = .ok []
          ∧ c.heap.region.size - c.heap.lo ≤ 0xffffffff
          ∧ ∃ chain, c.heap.region.chain (c.heap.lo + frameSize) = .ok chain
            ∧ (chain.blocks.map ChainBlock.addr).Nodup
            ∧ c.heap.stats = .ok (chain.blocks.foldl (fun s b => s.add b.tag)
                ⟨c.heap.region.size - c.heap.lo, 0, 0, 0, 0⟩)
            ∧ ∀ need, ∃ seen answer, c.heap.lists.search c.heap.region need = .ok (seen, answer)
              ∧ c.heap.lists.firstFit c.heap.region need = .ok answer
              ∧ seen.Nodup ∧ ∀ a ∈ seen, a ∈ chain.freeBlocks := by
  refine ⟨?_, ?_⟩
  · rcases Heap.layOut_spec source config with ⟨e, he⟩ | ⟨h, es, lists, hrun, -, -⟩
    · exact ⟨_, he⟩
    · exact ⟨_, hrun⟩
  · intro c hc
    rcases hc.keeps with ⟨es, hk⟩
    rcases hk.settled with ⟨lists, hs⟩
    have hchain := hs.drawn.chained.chain_eq (by simp only [frameSize]; omega)
    have hspan := hs.drawn.span
    have hplaces : (c.heap.region.blocksAt (c.heap.lo + frameSize) es).map ChainBlock.addr
        = (located (c.heap.lo + frameSize) es).map Prod.fst := by
      rw [Region.blocksAt, List.map_map]
      rfl
    refine ⟨?_, ?_, Heap.check_of_holds hs.holds, by omega, _, hchain, ?_, Heap.stats_eq hs, ?_⟩
    · intro call ha
      rcases step_spec hk ha with ⟨d, answer, -, hstep, -, -⟩
      exact ⟨d, answer, hstep⟩
    · intro p hp
      rcases exists_used hk hp with ⟨n, hn⟩
      rcases Heap.used_spec hs hn with ⟨-, hle, -, -, husable, -⟩
      exact ⟨n - 4, _, husable, Heap.payload_eq hs hn, Region.size_slice (by omega)⟩
    · rw [hplaces]
      exact located_nodup hs.large
    · intro need
      rw [hs.drawn.chained.freeBlocks_eq]
      exact hs.search_once (Heap.flatMap_perm hs.holds).1 need

/-- With two free blocks around the live one, and a request that is refused. -/
theorem never_faults_after_free :
    ∃ result c chain, Heap.layOut (Source.buffer 256) ⟨64, 64⟩ = .ok result
      ∧ Reaches (.buffer 256) ⟨64, 64⟩ c ∧ c.pointers = [144]
      ∧ (∃ d answer, c.step (.tryAllocate 5000) = .ok (d, answer))
      ∧ (∃ d answer, c.step (.resize (some 144) 40) = .ok (d, answer))
      ∧ (∃ n bytes, c.heap.usableSize 144 = .ok n ∧ c.heap.payload 144 = .ok bytes
        ∧ bytes.size = n)
      ∧ c.heap.check = .ok [] ∧ c.heap.stats = .ok ⟨192, 1, 16, 2, 48⟩
      ∧ c.heap.region.chain (c.heap.lo + frameSize) = .ok chain
      ∧ (chain.blocks.map ChainBlock.addr).Nodup
      ∧ ∃ seen answer, c.heap.lists.search c.heap.region 40 = .ok (seen, answer)
        ∧ seen.Nodup ∧ ∀ a ∈ seen, a ∈ chain.freeBlocks := by
  have hrun : (runFrom (.buffer 256) ⟨64, 64⟩ [.allocate 12, .allocate 12, .free (some 128)]).map
      (fun c => (c.pointers, c.heap.stats.toOption)) = some ([144], some ⟨192, 1, 16, 2, 48⟩) := by
    decide +kernel
  rcases Option.map_eq_some_iff.1 hrun with ⟨c, hrun, hc⟩
  have hreach := reaches_iff.2 ⟨_, hrun⟩
  have hpointers : c.pointers = [144] := congrArg Prod.fst hc
  have hmem : 144 ∈ c.pointers := by
    rw [hpointers]
    exact List.mem_singleton_self 144
  rcases never_faults (.buffer 256) ⟨64, 64⟩ with ⟨⟨result, hresult⟩, hstates⟩
  rcases hstates c hreach with ⟨hsteps, hpayloads, hcheck, -, chain, hchain, hnd, -, hsearches⟩
  rcases hsearches 40 with ⟨seen, answer, hsearch, -, hseen, hfree⟩
  exact ⟨result, c, chain, hresult, hreach, hpointers, hsteps _ trivial,
    hsteps _ (owns_of_mem hmem), hpayloads 144 hmem, hcheck,
    Fault.toOption_eq_some.1 (congrArg Prod.snd hc), hchain, hnd, seen, answer, hsearch, hseen,
    hfree⟩

end Client

end BoundaryTag
