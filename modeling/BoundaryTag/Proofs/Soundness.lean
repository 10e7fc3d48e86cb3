import BoundaryTag.Proofs.EmptyReports
import BoundaryTag.Proofs.ClientInvariant

/-!
# Soundness — the check as an invariant

A heap is sound when its check finds nothing and links reach its end. Nothing else has to be
known about it: every operation of a sound heap comes through and leaves a sound heap.

* `Heap.Sound`, and `sound_iff`: the sound heaps are the settled ones.
* `Heap.InUse` are the allocated blocks of the chain, whose pointers may be taken back.
* `sound_invariant` puts the operations together.
-/

namespace BoundaryTag

open Extent

namespace Heap

/-- The check finds nothing, and links reach the end of the heap. -/
def Sound (h : Heap) : Prop := h.check = .ok [] ∧ h.region.size - h.lo ≤ 0xffffffff

/-- The block at `a` is an allocated block of the chain, which has neither prologue nor epilogue. -/
def InUse (h : Heap) (a : Nat) : Prop :=
  ∃ c, h.region.chain (h.lo + frameSize) = .ok c
    ∧ ∃ b ∈ c.blocks, b.addr = a ∧ b.tag.allocated = true

/-- An operation comes through, and its heap is sound. -/
def LeavesSound {α : Type} (run : Except Fault (Heap × α)) : Prop :=
  ∃ h answer, run = .ok (h, answer) ∧ h.Sound

variable {h h' : Heap} {es es' : List Extent} {lists : Nat → List Nat} {a : Nat}

theorem sound_iff : h.Sound ↔ ∃ es lists, h.region.Settled h.lo es lists := by
  constructor
  · rintro ⟨hcheck, hspan⟩
    exact (check_eq_nil_iff (by omega)).1 hcheck
  · rintro ⟨es, lists, hs⟩
    have hspan := hs.drawn.span
    exact ⟨(check_eq_nil_iff hspan).2 ⟨es, lists, hs⟩, by omega⟩

theorem inUse_iff (hs : h.region.Settled h.lo es lists) :
    h.InUse a ↔ ∃ n, (a, n) ∈ h.used es := by
  have hchain := hs.drawn.chained.chain_eq (by simp only [frameSize]; omega)
  constructor
  · rintro ⟨c, hc, b, hb, rfl, halloc⟩
    rw [hchain] at hc
    cases hc
    rcases List.mem_map.1 hb with ⟨⟨x, n, allocated⟩, hx, rfl⟩
    rcases hs.drawn.tagsAt hx with ⟨p, ht⟩
    obtain rfl : true = allocated := halloc.symm.trans ht.allocated
    exact ⟨n, mem_inUse.2 hx⟩
  · rintro ⟨n, hn⟩
    rcases hs.drawn.tagsAt (mem_inUse.1 hn) with ⟨p, ht⟩
    exact ⟨_, hchain, h.region.blockAt a, List.mem_map.2 ⟨_, mem_inUse.1 hn, rfl⟩, rfl,
      ht.allocated⟩

theorem Carried.sound (hc : h.Carried es h' es') : h'.Sound := by
  rcases hc.settled with ⟨lists, hs⟩
  exact sound_iff.2 ⟨es', lists, hc.lo.symm ▸ hs⟩

/-- The check is an invariant: a new heap is sound, and whatever may be called on a sound heap
leaves a sound heap. -/
theorem sound_invariant :
    (∀ source config, ∃ result, layOut source config = .ok result
        ∧ ∀ h, result = .ok h → h.Sound)
      ∧ (∀ h : Heap, h.Sound →
        (∀ size, LeavesSound (h.tryAllocate size))
          ∧ (∀ size, LeavesSound (h.allocate size))
          ∧ (∀ count size, LeavesSound (h.allocateZeroed count size))
          ∧ (∀ p, (∀ a, p = some a → h.InUse a) →
            (∃ h', h.free p = .ok h' ∧ h'.Sound) ∧ ∀ size, LeavesSound (h.resize p size))
          ∧ ∀ a, h.InUse a → ∀ start bytes, LeavesSound (h.writePayload a start bytes))
      ∧ ∀ source config c, Client.Reaches source config c → c.heap.check = .ok [] := by
  refine ⟨fun source config => ?_, fun h hsound => ?_, fun source config c hc => ?_⟩
  · rcases layOut_spec source config with ⟨e, he⟩ | ⟨h, es, lists, hrun, hs, -⟩
    · exact ⟨_, he, nofun⟩
    · refine ⟨_, hrun, fun h' hh => ?_⟩
      cases hh
      exact sound_iff.2 ⟨es, lists, hs⟩
  · -- every operation is specified for settled heaps
    rcases sound_iff.1 hsound with ⟨es, lists, hs⟩
    have hrel : ∀ p, (∀ a, p = some a → h.InUse a) → h.Releasable es p :=
      fun p hp a ha => (inUse_iff hs).1 (hp a ha)
    refine ⟨fun size => ?_, fun size => ?_, fun count size => ?_, fun p hp => ⟨?_, fun size => ?_⟩,
      fun a ha start bytes => ?_⟩
    · rcases tryAllocate_spec hs size with ⟨e, hrun⟩ | ⟨h', es', p, hrun, hc, -⟩
      · exact ⟨h, _, hrun, hsound⟩
      · exact ⟨h', _, hrun, hc.sound⟩
    · rcases allocate_spec hs size with ⟨h', es', p, hrun, hc, -⟩
      exact ⟨h', p, hrun, hc.sound⟩
    · rcases allocateZeroed_spec hs count size with ⟨h', es', p, hrun, hc, -⟩
      exact ⟨h', p, hrun, hc.sound⟩
    · rcases free_spec hs (hrel p hp) with ⟨h', es', hrun, hc, -⟩
      exact ⟨h', hrun, hc.sound⟩
    · rcases resize_spec hs (hrel p hp) size with ⟨h', es', q, rest, hrun, hc, -⟩
      exact ⟨h', q, hrun, hc.sound⟩
    · rcases (inUse_iff hs).1 ha with ⟨n, hn⟩
      rcases writePayload_spec hs hn start bytes with ⟨h', b, hrun, hlo, hs', -⟩
      exact ⟨h', b, hrun, sound_iff.2 ⟨es, lists, hlo.symm ▸ hs'⟩⟩
  · rcases hc.keeps with ⟨es, hk⟩
    rcases hk.settled with ⟨lists, hs⟩
    exact (sound_iff.2 ⟨es, lists, hs⟩).1

/-- A heap with the block at 128 in use, from which too much is asked, some is asked and cleared,
and whose block is freed, moved or written. -/
theorem sound_invariant_after_allocate :
    ∃ c, Client.Reaches (.buffer 4096) ⟨64, 64⟩ c ∧ c.heap.Sound ∧ c.heap.InUse 128
      ∧ LeavesSound (c.heap.tryAllocate 5000) ∧ LeavesSound (c.heap.allocate 12)
      ∧ LeavesSound (c.heap.allocateZeroed 3 4)
      ∧ (∃ h', c.heap.free (some 128) = .ok h' ∧ h'.Sound)
      ∧ LeavesSound (c.heap.resize (some 128) 40)
      ∧ LeavesSound (c.heap.writePayload 128 0 ⟨#[7, 7]⟩) := by
  have hrun : (Client.runFrom (.buffer 4096) ⟨64, 64⟩ [.allocate 12]).map (fun c =>
      (c.heap.region.size - c.heap.lo, (c.heap.region.chain (c.heap.lo + frameSize)).toOption.map
        fun chain => chain.blocks.map fun b => (b.addr, b.tag.allocated)))
      = some (192, some [(128, true), (144, false)]) := by
    decide +kernel
  rcases Option.map_eq_some_iff.1 hrun with ⟨c, hrun, hc⟩
  rcases Prod.mk.inj hc with ⟨hspan, hblocks⟩
  rcases Option.map_eq_some_iff.1 hblocks with ⟨chain, hchain, hblocks⟩
  obtain ⟨-, hcalls, hreached⟩ := sound_invariant
  have hreach := Client.reaches_iff.2 ⟨_, hrun⟩
  have hsound : c.heap.Sound := ⟨hreached _ _ c hreach, by omega⟩
  have huse : c.heap.InUse 128 := by
    have hmem : (128, true) ∈ chain.blocks.map fun b => (b.addr, b.tag.allocated) := by
      rw [hblocks]
      exact List.mem_cons_self
    rcases List.mem_map.1 hmem with ⟨b, hb, heq⟩
    exact ⟨chain, Fault.toOption_eq_some.1 hchain, b, hb, congrArg Prod.fst heq,
      congrArg Prod.snd heq⟩
  obtain ⟨htry, halloc, hzeroed, htaken, hwrite⟩ := hcalls c.heap hsound
  obtain ⟨hfree, hresize⟩ := htaken (some 128) fun a ha => Option.some.inj ha ▸ huse
  exact ⟨c, hreach, hsound, huse, htry 5000, halloc 12, hzeroed 3 4, hfree, hresize 40,
    hwrite 128 huse 0 _⟩

end Heap

end BoundaryTag
