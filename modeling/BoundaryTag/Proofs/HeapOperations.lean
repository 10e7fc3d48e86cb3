import BoundaryTag.Heap.Allocation
import BoundaryTag.Plan.Run
import BoundaryTag.Proofs.HeapGrowth
import BoundaryTag.Proofs.Search

/-!
# HeapOperations — what the operations of a heap do

Every operation of a settled heap comes through, as the plan of the heap says, and leaves a settled
heap, which is neat if it was so before.

* `Grants` says which blocks are in use after memory was handed out, and `Carried` what a heap
  keeps besides: where it lies, and the bytes of all payloads that were and are in use.
* `tryAllocate_follows`, `allocate_follows` and `allocateZeroed_follows`: memory is handed out.
* `free_follows` and `resize_follows`: memory is taken back. A payload that is moved has its bytes
  at the new place (`move_follows`, `Moves`).
* `writePayload_spec`: writing a payload changes nothing else.

The plan is left out in `tryAllocate_spec` and its like.
-/

namespace BoundaryTag

open Extent

/-! ## What an operation leaves -/

/-- To the blocks in use comes the one that is returned, if any, which has a payload of at least
`size` bytes. -/
def Grants (used used' : List (Nat × Nat)) (size : Nat) : Option Nat → Prop
  | none => used'.Perm used
  | some x => ∃ n, size + 4 ≤ n ∧ used'.Perm ((x, n) :: used)

/-- From the blocks in use goes the one that is taken back, if any. -/
def Drops (used used' : List (Nat × Nat)) : Option Nat → Prop
  | none => used.Perm used'
  | some x => ∃ n, used.Perm ((x, n) :: used')

theorem Extent.Foreign.mono {lo i : Nat} {es es' : List Extent}
    (h : ∀ q ∈ inUse (lo + frameSize) es, q ∈ inUse (lo + frameSize) es') (hi : Foreign lo es i) :
    Foreign lo es' i := by
  rcases hi with hi | ⟨x, n, hx, hi⟩
  · exact .inl hi
  · exact .inr ⟨x, n, h _ hx, hi⟩

namespace Heap

def used (h : Heap) (es : List Extent) : List (Nat × Nat) := inUse (h.lo + frameSize) es

/-- A settled heap stays where it is, and keeps the bytes below it and those of payloads that are
in use before and after. -/
structure Carried (h : Heap) (es : List Extent) (h' : Heap) (es' : List Extent) : Prop where
  lo : h'.lo = h.lo
  settled : ∃ lists, h'.region.Settled h.lo es' lists
  frame : ∀ i, Foreign h.lo es i → Foreign h.lo es' i → h'.region.byte i = h.region.byte i

variable {h h' h₁ h₂ : Heap} {es es' es₁ es₂ : List Extent} {lists : Nat → List Nat}
  {a n size : Nat}

theorem Carried.refl (hs : h.region.Settled h.lo es lists) : Carried h es h es :=
  ⟨rfl, ⟨lists, hs⟩, fun _ _ _ => rfl⟩

/-- Steps follow one another when the first takes no block back. -/
theorem Carried.trans (h₁₂ : Carried h es h₁ es₁) (h₂₃ : Carried h₁ es₁ h₂ es₂)
    (hkeep : ∀ q ∈ h.used es, q ∈ h.used es₁) : Carried h es h₂ es₂ := by
  rcases h₁₂ with ⟨hlo, -, hframe⟩
  rcases h₂₃ with ⟨hlo', hs', hframe'⟩
  rw [hlo] at hs' hframe'
  refine ⟨hlo'.trans hlo, hs', fun i hi hi' => ?_⟩
  -- a payload that is in use before and after is in use in between
  calc h₂.region.byte i = h₁.region.byte i := hframe' i (hi.mono hkeep) hi'
    _ = h.region.byte i := hframe i hi (hi.mono hkeep)

/-! ## Handing out -/

theorem blockFor_eq_some {need : Nat} (h : (blockFor size).filter (· ≤ maxBlock) = some need) :
    minBlock ≤ need ∧ need % 8 = 0 ∧ size + 4 ≤ need := by
  rcases Option.filter_eq_some_iff.1 h with ⟨hb, hmax⟩
  have hle := of_decide_eq_true hmax
  unfold blockFor at hb
  split at hb
  case isFalse => cases hb
  case isTrue =>
    rcases Option.map_eq_some_iff.1 hb with ⟨m, hm, rfl⟩
    rcases alignUp_eq_some.1 hm with ⟨-, h8, hn, -⟩
    simp only [minBlock] at *
    omega

/-- The front of a free block is handed out, as the plan says. -/
theorem place_follows {need : Nat} (hs : h.region.Settled h.lo es lists)
    (ha : (a, ⟨n, false⟩) ∈ located (h.lo + frameSize) es) (hneed : minBlock ≤ need)
    (h8 : need % 8 = 0) (hfit : need ≤ n) (hsize : size + 4 ≤ need) :
    ∃ h' q events, h.place a need = .ok h' ∧ (h.planOf es lists).place a need = (q, events)
      ∧ h.Follows h' q events ∧ Carried h es h' q.extents
      ∧ Grants (h.used es) (h.used q.extents) size (some a) := by
  rcases exists_split ha with ⟨pre, post, rfl, hx⟩
  rcases hs.place hx.symm hneed h8 hfit with
    ⟨s, events, m, left, lists', hplace, hplan, -, hm, hle, hsettled, hneat, hbyte⟩
  refine ⟨(h.withRegion s).noteEvents events, _, events, perform_eq hplace, hplan,
    follows_noteEvents hsettled hneat events, ⟨rfl, ⟨lists', hsettled⟩,
    fun i _ hi => hbyte i (kept_of_foreign hsettled.large hi)⟩, m, by omega, ?_⟩
  have hpost : a + m + left = a + n := by omega
  rw [used, used, inUse_append, inUse_append, inUse, inUse, inUse_append, inUse_gap, stop_gap, ← hx,
    if_pos rfl, if_neg Bool.false_ne_true, hpost, List.nil_append]
  exact List.perm_middle

/-- The heap grows and the block at the top is taken, or nothing changes, as the plan says. -/
theorem extend_place_follows {need bytes : Nat} (hs : h.region.Settled h.lo es lists)
    (hneed : minBlock ≤ need) (h8 : need % 8 = 0) (hsize : size + 4 ≤ need) (hfit : need ≤ bytes) :
    (∃ e, h.extend bytes = .ok (h, .error e)
        ∧ (h.planOf es lists).growth h.admits bytes = .error e)
      ∨ ∃ h₁ h' a n q₁ q events more, h.extend bytes = .ok (h₁, .ok a) ∧ h₁.place a need = .ok h'
        ∧ (h.planOf es lists).growth h.admits bytes = .ok n
        ∧ (h.planOf es lists).grow n = (q₁, a, events) ∧ q₁.place a need = (q, more)
        ∧ h.Follows h' q (events ++ more) ∧ Carried h es h' q.extents
        ∧ Grants (h.used es) (h.used q.extents) size (some a) := by
  rcases extend_follows hs bytes with
    hrefused | ⟨h₁, pre, m, lists', n, events, hext, -, hgrowth, hgrow, hf, hm, huse, hframe⟩
  · exact .inl hrefused
  · have hlo := hf.lo
    have hs₁ : h₁.region.Settled h₁.lo (pre ++ [⟨m, false⟩]) lists' := hlo.symm ▸ hf.settled
    have hmem : (stop (h.lo + frameSize) pre, ⟨m, false⟩) ∈
        located (h₁.lo + frameSize) (pre ++ [⟨m, false⟩]) := hlo ▸ mem_located_split _ _ _ _
    rcases place_follows hs₁ hmem hneed h8 (Nat.le_trans hfit hm) hsize with
      ⟨h', q, more, hplace, hplan, hf', hc, hg⟩
    have hq₁ : h₁.planOf (pre ++ [⟨m, false⟩]) lists' = h.planOf (pre ++ [⟨m, false⟩]) lists' :=
      hf.planOf_eq
    have hgrown : Carried h es h₁ (pre ++ [⟨m, false⟩]) :=
      ⟨hlo, ⟨lists', hf.settled⟩, fun i _ hi => hframe i hi⟩
    -- what was in use before growth is in use after it
    have hkeep : ∀ q ∈ h.used es, q ∈ h.used (pre ++ [⟨m, false⟩]) := fun q hq => by
      rw [used, huse]
      exact hq
    rw [hq₁] at hplan
    rw [used, used, hlo, huse] at hg
    exact .inr ⟨h₁, h', _, n, _, q, events, more, hext, hplace, hgrowth, hgrow, hplan,
      hf.trans hf', hgrown.trans hc hkeep, hg⟩

/-- A request is refused and nothing changes, or it is granted, as the plan says. -/
theorem tryAllocate_follows (hs : h.region.Settled h.lo es lists) (size : Nat) :
    (∃ e, h.tryAllocate size = .ok (h, .error e)
        ∧ (h.planOf es lists).allocate h.config h.admits size = (h.planOf es lists, .error e, []))
      ∨ ∃ h' q p events, h.tryAllocate size = .ok (h', .ok p)
        ∧ (h.planOf es lists).allocate h.config h.admits size = (q, .ok p, events)
        ∧ h.Follows h' q events ∧ Carried h es h' q.extents
        ∧ Grants (h.used es) (h.used q.extents) size p := by
  by_cases hzero : size = 0
  · exact .inr ⟨h, h.planOf es lists, none, [], if_pos hzero, if_pos hzero, .refl hs, .refl hs,
      List.Perm.refl _⟩
  rw [tryAllocate, if_neg hzero, Plan.allocate, if_neg hzero]
  cases hblock : (blockFor size).filter (· ≤ maxBlock) with
  | none => exact .inl ⟨_, rfl, rfl⟩
  | some need =>
      rcases blockFor_eq_some hblock with ⟨hmin, h8, hsize⟩
      have hsearch : h.lists.firstFit h.region need = .ok ((h.planOf es lists).firstFit need) :=
        hs.holds.firstFit_planned need
      simp only
      rw [hsearch, Fault.ok_bind]
      cases hfirst : (h.planOf es lists).firstFit need with
      | some bp =>
          -- the block that the search has found
          rcases hs.holds.firstFit_located (hsearch.trans (congrArg Except.ok hfirst)) with
            ⟨n, hn, hfit⟩
          rcases place_follows hs hn hmin h8 hfit hsize with
            ⟨h', q, events, hplace, hplan, hf, hc, hg⟩
          refine .inr ⟨h', q, some bp, events, ?_, ?_, hf, hc, hg⟩
          · simp only
            rw [hplace, Fault.ok_bind, Fault.pure_eq_ok]
          · simp only
            rw [hplan]
      | none =>
          -- a block at the top, if the heap can grow by it
          simp only
          rcases extend_place_follows hs hmin h8 hsize
            (Nat.le_max_left need h.config.growFloor) with
            ⟨e, he, hplan⟩ | ⟨h₁, h', a, n, q₁, q, events, more, hext, hplace, hgrowth, hgrow,
              hplan, hf, hc, hg⟩
          · refine .inl ⟨e, ?_, ?_⟩
            · rw [he, Fault.ok_bind]
              rfl
            · rw [hplan]
          · refine .inr ⟨h', q, some a, events ++ more, ?_, ?_, hf, hc, hg⟩
            · rw [hext, Fault.ok_bind]
              show (h₁.place a need >>= _) = _
              rw [hplace, Fault.ok_bind, Fault.pure_eq_ok]
            · rw [hgrowth]
              simp only
              rw [hgrow]
              simp only
              rw [hplan]

theorem tryAllocate_spec (hs : h.region.Settled h.lo es lists) (size : Nat) :
    (∃ e, h.tryAllocate size = .ok (h, .error e))
      ∨ ∃ h' es' p, h.tryAllocate size = .ok (h', .ok p) ∧ Carried h es h' es'
        ∧ Grants (h.used es) (h.used es') size p := by
  rcases tryAllocate_follows hs size with ⟨e, hrun, -⟩ | ⟨h', q, p, events, hrun, -, -, hc, hg⟩
  · exact .inl ⟨e, hrun⟩
  · exact .inr ⟨h', q.extents, p, hrun, hc, hg⟩

/-- A refusal is noted in the journal, which no plan knows of. -/
theorem allocate_follows (hs : h.region.Settled h.lo es lists) (size : Nat) :
    ∃ h' q answer events, h.allocate size = .ok (h', Plan.granted answer)
      ∧ (h.planOf es lists).allocate h.config h.admits size = (q, answer, events)
      ∧ h.Follows h' q events ∧ Carried h es h' q.extents
      ∧ Grants (h.used es) (h.used q.extents) size (Plan.granted answer) := by
  rcases tryAllocate_follows hs size with
    ⟨e, he, hplan⟩ | ⟨h', q, p, events, htry, hplan, hf, hc, hg⟩
  · refine ⟨h.note (.refused size e), _, .error e, [], ?_, hplan, (Follows.refl hs).note rfl,
      ⟨rfl, ⟨lists, hs⟩, fun _ _ _ => rfl⟩, List.Perm.refl _⟩
    rw [allocate, he, Fault.ok_bind]
    rfl
  · refine ⟨h', q, .ok p, events, ?_, hplan, hf, hc, hg⟩
    rw [allocate, htry, Fault.ok_bind]
    rfl

theorem allocate_spec (hs : h.region.Settled h.lo es lists) (size : Nat) :
    ∃ h' es' p, h.allocate size = .ok (h', p) ∧ Carried h es h' es'
      ∧ Grants (h.used es) (h.used es') size p := by
  rcases allocate_follows hs size with ⟨h', q, answer, events, hrun, -, -, hc, hg⟩
  exact ⟨h', q.extents, _, hrun, hc, hg⟩

/-! ## Payloads -/

/-- A block in use lies in the region, and its header gives its size. -/
theorem used_spec (hs : h.region.Settled h.lo es lists) (ha : (a, n) ∈ h.used es) :
    h.lo + frameSize ≤ a ∧ a + n ≤ h.region.size ∧ a % 8 = 0 ∧ 16 ≤ n
      ∧ h.usableSize a = .ok (n - 4) ∧ h.payloadSize a = .ok (n - 4) := by
  have hloc := mem_inUse.1 ha
  have hb := hs.drawn.located hloc
  rcases hs.drawn.tagsAt hloc with ⟨p, ht⟩
  have hsize : (h.region.tagAt a).size = n := ht.size
  have hn : 16 ≤ n := hb.2.2.2.1
  have husable : h.usableSize a = .ok (n - 4) := by
    rw [usableSize, hs.drawn.header hloc, Fault.ok_bind, hsize, Address.sub_eq (by omega)]
  refine ⟨hb.1, hb.2.1, hb.2.2.1, hn, husable, ?_⟩
  have hroom : a + (n - 4) ≤ h.region.size := by
    have := hb.2.1
    simp only at this
    omega
  rw [payloadSize, husable, Fault.ok_bind, Fault.require_eq _ hroom, Fault.ok_bind,
    Fault.pure_eq_ok]

theorem payload_eq (hs : h.region.Settled h.lo es lists) (ha : (a, n) ∈ h.used es) :
    h.payload a = .ok (h.region.slice a (n - 4)) := by
  rcases used_spec hs ha with ⟨-, -, -, -, -, hsize⟩
  rw [payload, hsize, Fault.ok_bind, Fault.pure_eq_ok]

/-- A block in use is none of the others. -/
theorem used_fresh {rest : List (Nat × Nat)} (hl : Large es)
    (hperm : (h.used es).Perm ((a, n) :: rest)) : a ∉ rest.map Prod.fst := by
  have hnd : ((h.used es).map Prod.fst).Nodup := inUse_nodup hl
  exact (List.nodup_cons.1 ((hperm.map Prod.fst).nodup_iff.1 hnd)).1

/-- Two blocks in use do not overlap. -/
theorem used_beside {x k : Nat} (hs : h.region.Settled h.lo es lists) (ha : (a, n) ∈ h.used es)
    (hx : (x, k) ∈ h.used es) (hne : x ≠ a) : x + k ≤ a ∨ a + n ≤ x := by
  rcases located_apart hs.large (mem_inUse.1 hx) (mem_inUse.1 ha) with ⟨hxa, -⟩ | hle | hle
  · exact absurd hxa hne
  · exact .inl hle
  · exact .inr hle

/-- A block in use does not overlap the others. -/
theorem used_apart {x k : Nat} {rest : List (Nat × Nat)} (hs : h.region.Settled h.lo es lists)
    (hperm : (h.used es).Perm ((a, n) :: rest)) (hx : (x, k) ∈ rest) : x + k ≤ a ∨ a + n ≤ x := by
  refine used_beside hs (hperm.mem_iff.2 List.mem_cons_self)
    (hperm.mem_iff.2 (List.mem_cons_of_mem _ hx)) fun hxa => ?_
  exact used_fresh hs.large hperm (List.mem_map.2 ⟨(x, k), hx, hxa⟩)

/-- The payload of a block that was not in use before has no foreign bytes. -/
theorem not_foreign {i : Nat} (hs : h.region.Settled h.lo es lists)
    (hperm : (h.used es).Perm ((a, n) :: h.used es')) (hi : Foreign h.lo es' i) :
    ¬(a ≤ i ∧ i + 4 < a + n) := by
  intro hc
  rcases hi with hi | ⟨x, k, hx, hi⟩
  · have hb := hs.drawn.located (mem_inUse.1 (hperm.mem_iff.2 List.mem_cons_self))
    omega
  · have := used_apart hs hperm hx
    omega

/-- Writing inside the payload of a block in use. -/
theorem overlay_settled {s : Region} (hs : h.region.Settled h.lo es lists) (ha : (a, n) ∈ h.used es)
    (hsize : s.size = h.region.size)
    (hbyte : ∀ i, ¬(a ≤ i ∧ i + 4 < a + n) → s.byte i = h.region.byte i) :
    (h.withRegion s).region.Settled (h.withRegion s).lo es lists :=
  hs.congr hsize fun i hi => hbyte i fun hc => hi ⟨a, n, ha, hc⟩

theorem overlay_neat {s : Region} (hs : h.region.Settled h.lo es lists) (ha : (a, n) ∈ h.used es)
    (hsize : s.size = h.region.size)
    (hbyte : ∀ i, ¬(a ≤ i ∧ i + 4 < a + n) → s.byte i = h.region.byte i)
    (hneat : h.region.Neat h.lo) : s.Neat h.lo :=
  hs.neat_congr hsize (fun i hi => hbyte i fun hc => hi ⟨a, n, ha, hc⟩) hneat

/-- What is written into a block that was just handed out does not show elsewhere. -/
theorem Carried.overlay {s : Region} (hc : Carried h es h₁ es₁)
    (hperm : (h.used es₁).Perm ((a, n) :: h.used es)) (hsize : s.size = h₁.region.size)
    (hbyte : ∀ i, ¬(a ≤ i ∧ i + 4 < a + n) → s.byte i = h₁.region.byte i) :
    Carried h es (h₁.withRegion s) es₁ := by
  rcases hc with ⟨hlo, ⟨lists₁, hs₁⟩, hframe⟩
  have hs₁' : h₁.region.Settled h₁.lo es₁ lists₁ := hlo ▸ hs₁
  have hperm' : (h₁.used es₁).Perm ((a, n) :: h₁.used es) := by
    rw [used, used, hlo]
    exact hperm
  have ha : (a, n) ∈ h₁.used es₁ := hperm'.mem_iff.2 List.mem_cons_self
  refine ⟨hlo, ⟨lists₁, hlo ▸ overlay_settled hs₁' ha hsize hbyte⟩, fun i hi hi' => ?_⟩
  calc s.byte i = h₁.region.byte i := hbyte i (not_foreign hs₁' hperm' (hlo.symm ▸ hi))
    _ = h.region.byte i := hframe i hi hi'

/-- Clearing a payload does not change the plan. -/
theorem allocateZeroed_follows (hs : h.region.Settled h.lo es lists) (count size : Nat) :
    ∃ h' q p events, h.allocateZeroed count size = .ok (h', p)
      ∧ (h.planOf es lists).step h.config h.admits (.allocateZeroed count size)
        = (q, .pointer p, events)
      ∧ h.Follows h' q events ∧ Carried h es h' q.extents
      ∧ Grants (h.used es) (h.used q.extents) (count * size) p := by
  rw [allocateZeroed, Plan.step]
  split
  case isFalse =>
    exact ⟨h, h.planOf es lists, none, [], rfl, rfl, .refl hs, .refl hs, List.Perm.refl _⟩
  case isTrue =>
    rcases allocate_follows hs (count * size) with
      ⟨h₁, q, answer, events, halloc, hplan, hf, hc, hg⟩
    rw [halloc, Fault.ok_bind, hplan]
    cases hp : Plan.granted answer with
    | none =>
        rw [hp] at hg
        exact ⟨h₁, q, none, events, rfl, by simp only [hp], hf, hc, hg⟩
    | some a =>
        rw [hp] at hg
        rcases hg with ⟨n, hn, hperm⟩
        have hs₁ : h₁.region.Settled h₁.lo q.extents q.lists := hf.lo.symm ▸ hf.settled
        have ha : (a, n) ∈ h₁.used q.extents := by
          rw [used, hf.lo]
          exact hperm.mem_iff.2 List.mem_cons_self
        rcases used_spec hs₁ ha with ⟨-, -, -, h16, -, hpay⟩
        -- clearing the payload shows in its own bytes only
        have hbyte : ∀ i, ¬(a ≤ i ∧ i + 4 < a + n) →
            (h₁.region.fill a 0 (n - 4)).byte i = h₁.region.byte i := by
          intro i hi
          rw [Region.byte_fill, if_neg (by omega)]
        have hedit : h₁.edit (fun r => return (r.fill a 0 (n - 4), ()))
            = .ok (h₁.withRegion (h₁.region.fill a 0 (n - 4)), ()) := edit_eq rfl
        have hfill := overlay_settled hs₁ ha (Region.size_fill _ _ _ _) hbyte
        have hneat := overlay_neat hs₁ ha (Region.size_fill _ _ _ _) hbyte
        refine ⟨h₁.withRegion (h₁.region.fill a 0 (n - 4)), q, some a, events, ?_,
          by simp only [hp],
          hf.withRegion (hf.lo ▸ hfill) (hf.lo ▸ hneat),
          hc.overlay hperm (Region.size_fill _ _ _ _) hbyte, n, hn, hperm⟩
        show (h₁.payloadSize a >>= _) = _
        rw [hpay, Fault.ok_bind]
        show (h₁.edit _ >>= _) = _
        rw [hedit, Fault.ok_bind]
        rfl

theorem allocateZeroed_spec (hs : h.region.Settled h.lo es lists) (count size : Nat) :
    ∃ h' es' p, h.allocateZeroed count size = .ok (h', p) ∧ Carried h es h' es'
      ∧ Grants (h.used es) (h.used es') (count * size) p := by
  rcases allocateZeroed_follows hs count size with ⟨h', q, p, events, hrun, -, -, hc, hg⟩
  exact ⟨h', q.extents, p, hrun, hc, hg⟩

/-- A write into a payload comes through and changes nothing else. The plan stays the same. -/
theorem writePayload_spec (hs : h.region.Settled h.lo es lists) (ha : (a, n) ∈ h.used es)
    (start : Nat) (bs : ByteArray) :
    ∃ h' b, h.writePayload a start bs = .ok (h', b) ∧ h'.lo = h.lo
      ∧ h'.region.Settled h.lo es lists
      ∧ (∀ i, ¬(a ≤ i ∧ i + 4 < a + n) → h'.region.byte i = h.region.byte i)
      ∧ h.Follows h' (h.planOf es lists) [] := by
  rcases used_spec hs ha with ⟨-, hle, -, h16, -, hpay⟩
  rw [writePayload, hpay, Fault.ok_bind]
  split
  case isFalse => exact ⟨h, false, rfl, rfl, hs, fun _ _ => rfl, .refl hs⟩
  case isTrue hfit =>
    have hstore : ∃ s, h.region.store (a + start) bs = .ok s := by
      rw [Region.store, dif_pos (by omega)]
      exact ⟨_, rfl⟩
    rcases hstore with ⟨s, hs'⟩
    have hbyte : ∀ i, ¬(a ≤ i ∧ i + 4 < a + n) → s.byte i = h.region.byte i := by
      intro i hi
      rw [Region.byte_store hs', if_neg (by omega)]
    have hedit : h.edit (fun r => do return (← r.store (a + start) bs, ()))
        = .ok (h.withRegion s, ()) := edit_eq (by
      rw [hs', Fault.ok_bind]
      rfl)
    have hsettled := overlay_settled hs ha (Region.size_store hs') hbyte
    refine ⟨h.withRegion s, true, ?_, rfl, hsettled, hbyte,
      (Follows.refl hs).withRegion hsettled (overlay_neat hs ha (Region.size_store hs') hbyte)⟩
    show (h.edit _ >>= _) = _
    rw [hedit, Fault.ok_bind]
    rfl

/-! ## Taking back -/

/-- A block in use is taken back, as the plan says. -/
theorem free_used_follows (hs : h.region.Settled h.lo es lists) (ha : (a, n) ∈ h.used es) :
    ∃ h' q events, h.free (some a) = .ok h' ∧ (h.planOf es lists).free a = (q, events)
      ∧ h.Follows h' q events ∧ Carried h es h' q.extents
      ∧ (h.used es).Perm ((a, n) :: h.used q.extents) := by
  have hlarge := hs.large
  have htidy := hs.tidy
  have hothers := Plan.inUse_free (p := h.planOf es lists) hlarge htidy (mem_inUse.1 ha)
  rcases hs.tidy.exists_around hs.large (mem_inUse.1 ha) with
    ⟨pre, b, f, post, rfl, hx, hpre, hpost⟩
  rcases hs.release rfl rfl hpre hpost with ⟨s, hrelease, -, hsettled, hneat, hframe⟩
  have hbefore := (Tidy.append.1 (Tidy.append.1 htidy).1).1
  have hplan := Plan.free_between lists h.lo hlarge rfl rfl hbefore hpre hpost
  rw [hx] at hrelease hplan
  have hfree : (h.planOf (pre ++ gap b ++ ⟨n, true⟩ :: (gap f ++ post)) lists).free a = _ := hplan
  rw [hfree] at hothers
  exact ⟨_, _, _, perform_eq hrelease, hplan, follows_noteEvents hsettled hneat _,
    ⟨rfl, ⟨_, hsettled⟩, fun i _ hi => hframe i hi⟩, hothers⟩

/-- A pointer that may be taken back: none, or a block in use. -/
def Releasable (h : Heap) (es : List Extent) (p : Option Nat) : Prop :=
  ∀ a, p = some a → ∃ n, (a, n) ∈ h.used es

theorem free_follows {p : Option Nat} (hs : h.region.Settled h.lo es lists)
    (hp : h.Releasable es p) :
    ∃ h' q events, h.free p = .ok h'
      ∧ (h.planOf es lists).step h.config h.admits (.free p) = (q, .done, events)
      ∧ h.Follows h' q events ∧ Carried h es h' q.extents
      ∧ Drops (h.used es) (h.used q.extents) p := by
  cases p with
  | none =>
      exact ⟨h, h.planOf es lists, [], rfl, rfl, .refl hs, .refl hs, List.Perm.refl _⟩
  | some a =>
      rcases hp a rfl with ⟨n, ha⟩
      rcases free_used_follows hs ha with ⟨h', q, events, hfree, hplan, hf, hc, hperm⟩
      refine ⟨h', q, events, hfree, ?_, hf, hc, n, hperm⟩
      rw [Plan.step, hplan]

theorem free_spec {p : Option Nat} (hs : h.region.Settled h.lo es lists)
    (hp : h.Releasable es p) :
    ∃ h' es', h.free p = .ok h' ∧ Carried h es h' es' ∧ Drops (h.used es) (h.used es') p := by
  rcases free_follows hs hp with ⟨h', q, events, hrun, -, -, hc, hd⟩
  exact ⟨h', q.extents, hrun, hc, hd⟩

/-- The payload at `old` is copied into a block that was just handed out. -/
theorem copy_spec {old k m : Nat} {lists₁ : Nat → List Nat}
    (hs₁ : h₁.region.Settled h.lo es₁ lists₁) (hc : Carried h es h₁ es₁)
    (hperm : (h.used es₁).Perm ((a, m) :: h.used es)) (hold : (old, k) ∈ h.used es)
    (hsize : size + 4 ≤ m) :
    ∃ s : Region, h₁.usableSize old = .ok (k - 4)
      ∧ h₁.edit (fun r => do return (← r.copy old a (min (k - 4) size), ()))
        = .ok (h₁.withRegion s, ())
      ∧ s.Settled h.lo es₁ lists₁ ∧ (h₁.region.Neat h.lo → s.Neat h.lo)
      ∧ Carried h es (h₁.withRegion s) es₁
      ∧ ∀ i < min (k - 4) size, s.byte (a + i) = h₁.region.byte (old + i) := by
  have hs₁' : h₁.region.Settled h₁.lo es₁ lists₁ := hc.lo.symm ▸ hs₁
  have hused : h₁.used es₁ = h.used es₁ := by rw [used, used, hc.lo]
  have ha : (a, m) ∈ h₁.used es₁ := hused ▸ hperm.mem_iff.2 List.mem_cons_self
  have hold₁ : (old, k) ∈ h₁.used es₁ :=
    hused ▸ hperm.mem_iff.2 (List.mem_cons_of_mem _ hold)
  rcases used_spec hs₁' ha with ⟨-, hle, -, h16, -, -⟩
  rcases used_spec hs₁' hold₁ with ⟨-, hle', -, h16', husable, -⟩
  have hslice : (h₁.region.slice old (min (k - 4) size)).size = min (k - 4) size :=
    Region.size_slice (by omega)
  have hcopy : ∃ s, h₁.region.copy old a (min (k - 4) size) = .ok s := by
    rw [Region.copy, if_pos (by omega), Region.store, dif_pos (by omega)]
    exact ⟨_, rfl⟩
  rcases hcopy with ⟨s, hs⟩
  have hsame := Region.size_copy hs
  -- only the payload at the new place is written
  have hbyte : ∀ i, ¬(a ≤ i ∧ i + 4 < a + m) → s.byte i = h₁.region.byte i := by
    intro i hi
    rw [Region.byte_copy hs, if_neg (by omega)]
  have hsettled := overlay_settled hs₁' ha hsame hbyte
  refine ⟨s, husable, edit_eq ?_, hc.lo ▸ hsettled,
    hc.lo ▸ overlay_neat hs₁' ha hsame hbyte, hc.overlay hperm hsame hbyte, fun i hi => ?_⟩
  · rw [hs, Fault.ok_bind]
    rfl
  · rw [Region.byte_copy hs, if_pos (by omega), Nat.add_sub_cancel_left]

/-- The payload at `old` moves into a block that was just handed out, and the old block is taken
back. -/
theorem move_follows {old k m : Nat} {q₁ : Plan} {events : List Event}
    (hf : h.Follows h₁ q₁ events) (hc : Carried h es h₁ q₁.extents)
    (hperm : (h.used q₁.extents).Perm ((a, m) :: h.used es)) (hold : (old, k) ∈ h.used es)
    (hsize : size + 4 ≤ m) :
    ∃ h₂ h' q more, h₁.usableSize old = .ok (k - 4)
      ∧ h₁.edit (fun r => do return (← r.copy old a (min (k - 4) size), ())) = .ok (h₂, ())
      ∧ h₂.free (some old) = .ok h' ∧ q₁.free old = (q, more)
      ∧ h.Follows h' q (events ++ more) ∧ Carried h es h' q.extents
      ∧ (h.used q.extents).Perm ((a, m) :: (h.used es).erase (old, k))
      ∧ ∀ i < min (k - 4) size, h'.region.byte (a + i) = h.region.byte (old + i) := by
  rcases copy_spec hf.settled hc hperm hold hsize with
    ⟨s, husable, hcopy, hsettled, hneat, hc₂, hcopied⟩
  have hf₂ := hf.withRegion hsettled hneat
  have hused₂ : ∀ es, (h₁.withRegion s).used es = h.used es := fun es => by
    rw [used, used, hf₂.lo]
  have hold₁ : (old, k) ∈ h.used q₁.extents := hperm.mem_iff.2 (List.mem_cons_of_mem _ hold)
  have ha₁ : (a, m) ∈ h.used q₁.extents := hperm.mem_iff.2 List.mem_cons_self
  have hold₂ : (old, k) ∈ (h₁.withRegion s).used q₁.extents := hused₂ q₁.extents ▸ hold₁
  have hs₂ : (h₁.withRegion s).region.Settled (h₁.withRegion s).lo q₁.extents q₁.lists :=
    hf₂.lo.symm ▸ hsettled
  have hq₁ : (h₁.withRegion s).planOf q₁.extents q₁.lists = q₁ := hf₂.planOf_eq
  rcases free_used_follows hs₂ hold₂ with ⟨h₃, q₃, more, hfree, hplan₃, hf₃, hc₃, hdrops⟩
  rw [hused₂, hused₂] at hdrops
  rw [hq₁] at hplan₃
  have hkeep : ∀ q ∈ h.used es, q ∈ h.used q₁.extents :=
    fun q hq => hperm.mem_iff.2 (List.mem_cons_of_mem _ hq)
  have hrest : (h.used es).Perm ((old, k) :: (h.used es).erase (old, k)) :=
    List.perm_cons_erase hold
  have hgrant : (h.used q₃.extents).Perm ((a, m) :: (h.used es).erase (old, k)) := by
    -- the new block came before the old one was taken back
    have hswap : ((old, k) :: h.used q₃.extents).Perm
        ((old, k) :: (a, m) :: (h.used es).erase (old, k)) :=
      calc List.Perm ((old, k) :: h.used q₃.extents) (h.used q₁.extents) := hdrops.symm
        List.Perm _ ((a, m) :: h.used es) := hperm
        List.Perm _ ((a, m) :: (old, k) :: (h.used es).erase (old, k)) := hrest.cons _
        List.Perm _ _ := .swap ..
    exact hswap.cons_inv
  have ha₃ : (a, m) ∈ h.used q₃.extents := hgrant.mem_iff.2 List.mem_cons_self
  refine ⟨_, h₃, q₃, more, husable, hcopy, hfree, hplan₃, hf₂.trans hf₃, hc₂.trans hc₃ hkeep,
    hgrant, fun i hi => ?_⟩
  -- the copy is in a payload when the old block is taken back, and so was what is copied before
  have hframe₃ := hc₃.frame (a + i)
  rw [hf₂.lo] at hframe₃
  calc h₃.region.byte (a + i) = s.byte (a + i) :=
      hframe₃ (.inr ⟨a, m, ha₁, by omega, by omega⟩) (.inr ⟨a, m, ha₃, by omega, by omega⟩)
    _ = h₁.region.byte (old + i) := hcopied i hi
    _ = h.region.byte (old + i) :=
      hc.frame (old + i) (.inr ⟨old, k, hold, by omega, by omega⟩)
        (.inr ⟨old, k, hold₁, by omega, by omega⟩)

/-- The block in use at `old` has gone, and its payload has come to a new block for `size` bytes, as
far as both have room. -/
structure Moves (h : Heap) (es : List Extent) (old k size : Nat) (h' : Heap) (es' : List Extent)
    (new : Nat) : Prop where
  used : ∃ m, size + 4 ≤ m ∧ (h.used es').Perm ((new, m) :: (h.used es).erase (old, k))
  fresh : new ∉ (h.used es).map Prod.fst
  copied : ∀ i < min (k - 4) size, h'.region.byte (new + i) = h.region.byte (old + i)
  free : ∃ x n, (x, ⟨n, false⟩) ∈ located (h.lo + frameSize) es' ∧ x ≤ old ∧ old + k ≤ x + n

/-- A payload moves to another block, as the plan says. If the block cannot be had then it stays
where it is. -/
theorem resize_used_follows {old k : Nat} (hs : h.region.Settled h.lo es lists)
    (hold : (old, k) ∈ h.used es) (hsize : size ≠ 0) :
    ∃ h' q answer events, h.resize (some old) size = .ok (h', answer)
      ∧ (h.planOf es lists).resize h.config h.admits (some old) size = (q, answer, events)
      ∧ h.Follows h' q events ∧ Carried h es h' q.extents
      ∧ (answer = none → (h.used q.extents).Perm (h.used es))
      ∧ ∀ new, answer = some new → Moves h es old k size h' q.extents new := by
  unfold resize Plan.resize
  rw [if_neg hsize, if_neg hsize]
  rcases allocate_follows hs size with ⟨h₁, q₁, answer, events, halloc, hplan, hf, hc, hgrants⟩
  rw [hplan]
  simp only
  rw [halloc, Fault.ok_bind]
  have hnone : ∀ new, (none : Option Nat) = some new →
      Moves h es old k size h₁ q₁.extents new := by
    intro new hnew
    cases hnew
  rcases answer with e | _ | new
  · -- the request was refused
    exact ⟨h₁, q₁, none, events, rfl, rfl, hf, hc, fun _ => hgrants, hnone⟩
  · exact ⟨h₁, q₁, none, events, rfl, rfl, hf, hc, fun _ => hgrants, hnone⟩
  · -- both blocks are in use while the payload is copied
    rcases hgrants with ⟨m, hm, hperm⟩
    rcases move_follows hf hc hperm hold hm with
      ⟨h₂, h₃, q₃, more, husable, hcopy, hfree, hplan₃, hf₃, hc₃, hgrant, hcopied⟩
    have hold₁ : (old, k) ∈ h.used q₁.extents := hperm.mem_iff.2 (List.mem_cons_of_mem _ hold)
    have hfresh : new ∉ (h.used es).map Prod.fst := used_fresh hf.settled.large hperm
    have hgap : ∃ x n, (x, ⟨n, false⟩) ∈ located (h.lo + frameSize) q₃.extents
        ∧ x ≤ old ∧ old + k ≤ x + n := by
      have hstart : q₁.start = h.lo + frameSize := by rw [Plan.start, hf.start]
      have hgap := Plan.exists_free hf.settled.large hf.settled.tidy
        (hstart.symm ▸ mem_inUse.1 hold₁)
      rw [hplan₃, hstart] at hgap
      exact hgap
    refine ⟨h₃, q₃, some new, events ++ more, ?_, ?_, hf₃, hc₃, ?_, ?_⟩
    · show (h₁.usableSize old >>= _) = _
      rw [husable, Fault.ok_bind]
      show (h₁.edit _ >>= _) = _
      rw [hcopy, Fault.ok_bind]
      show (h₂.free (some old) >>= _) = _
      rw [hfree, Fault.ok_bind, Fault.pure_eq_ok]
    · simp only
      rw [hplan₃]
    · intro hgone
      cases hgone
    · intro new' hnew
      obtain rfl : new = new' := Option.some.inj hnew
      exact ⟨⟨m, hm, hgrant⟩, hfresh, hcopied, hgap⟩

/-- To move to no bytes is to take back, and to move nothing is to hand out. -/
theorem resize_follows {p : Option Nat} (hs : h.region.Settled h.lo es lists)
    (hp : h.Releasable es p) (size : Nat) :
    ∃ h' q answer rest events, h.resize p size = .ok (h', answer)
      ∧ (h.planOf es lists).resize h.config h.admits p size = (q, answer, events)
      ∧ h.Follows h' q events ∧ Carried h es h' q.extents
      ∧ (if size = 0 ∨ answer.isSome then Drops (h.used es) rest p else rest = h.used es)
      ∧ Grants rest (h.used q.extents) size answer := by
  by_cases hsize : size = 0
  · -- to resize to nothing is to free
    unfold resize Plan.resize
    rw [if_pos hsize, if_pos hsize]
    rcases free_follows hs hp with ⟨h', q, events, hfree, hplan, hf, hc, hdrops⟩
    refine ⟨h', q, none, h.used q.extents, events, ?_, ?_, hf, hc, ?_, List.Perm.refl _⟩
    · rw [hfree, Fault.ok_bind, Fault.pure_eq_ok]
    · cases p with
      | none =>
          cases hplan
          rfl
      | some old =>
          cases hplan
          rfl
    · rw [if_pos (.inl hsize)]
      exact hdrops
  cases p with
  | none =>
      -- to resize nothing is to allocate
      unfold resize Plan.resize
      rw [if_neg hsize, if_neg hsize]
      rcases allocate_follows hs size with ⟨h₁, q₁, answer, events, halloc, hplan, hf, hc, hgrants⟩
      rw [hplan]
      refine ⟨h₁, q₁, Plan.granted answer, h.used es, events, halloc, ?_, hf, hc, ?_, hgrants⟩
      · rcases answer with e | _ | new
        · rfl
        · rfl
        · rfl
      · split
        · exact List.Perm.refl _
        · rfl
  | some old =>
      rcases hp old rfl with ⟨k, hold⟩
      rcases resize_used_follows hs hold hsize with
        ⟨h', q, answer, events, hrun, hplan, hf, hc, hstays, hmoves⟩
      cases answer with
      | none =>
          refine ⟨h', q, none, h.used es, events, hrun, hplan, hf, hc, ?_, hstays rfl⟩
          rw [if_neg (by simp [hsize])]
      | some new =>
          refine ⟨h', q, some new, (h.used es).erase (old, k), events, hrun, hplan, hf, hc, ?_,
            (hmoves new rfl).used⟩
          rw [if_pos (.inr rfl)]
          exact ⟨k, List.perm_cons_erase hold⟩

theorem resize_spec {p : Option Nat} (hs : h.region.Settled h.lo es lists)
    (hp : h.Releasable es p) (size : Nat) :
    ∃ h' es' q rest, h.resize p size = .ok (h', q) ∧ Carried h es h' es'
      ∧ (if size = 0 ∨ q.isSome then Drops (h.used es) rest p else rest = h.used es)
      ∧ Grants rest (h.used es') size q := by
  rcases resize_follows hs hp size with ⟨h', q, p', rest, events, hrun, -, -, hc, hd, hg⟩
  exact ⟨h', q.extents, p', rest, hrun, hc, hd, hg⟩

end Heap

end BoundaryTag
