import BoundaryTag.Proofs.StorageExchange
import BoundaryTag.Source.Arena

/-!
# MappingContract — a buffer and a mapping are one source

A buffer makes its zeros when it grows, and a mapping has them from the start. A mapping is as good
as a buffer because nothing is written past its break, so that what comes into use is still zero.

* `Region.upTo_add` and `Region.upTo_store`: the first bytes of a region when it is shown further,
  and when bytes are laid over it.
* `Source.observe_eq`: if every step does what is required then so do all of them. The step lemmas
  are `Source.act_required` and `Arena.act_required`, the runs `Source.trace_eq` and
  `Arena.trace_eq`.
* `Arena.Backs.simulation`: what a heap does to a source is done in an arena to the bytes in use.
* `Source.mapping_agrees`: with a capacity of whole pages, nothing tells a mapping from a buffer.
-/

namespace BoundaryTag

/-! ## The first bytes -/

namespace Region

@[simp] theorem length_upTo (r : Region) (n : Nat) : (r.upTo n).length = n := by simp [upTo]

theorem getElem_upTo (r : Region) (n i : Nat) (h : i < (r.upTo n).length) :
    (r.upTo n)[i] = r.byte i := by
  simp [upTo]

theorem upTo_congr {r s : Region} {n : Nat} (h : ∀ i < n, s.byte i = r.byte i) :
    s.upTo n = r.upTo n := by
  apply List.map_congr_left
  intro i hi
  exact h i (List.mem_range.1 hi)

/-- Zeros are shown after the first bytes if there are only zeros. -/
theorem upTo_add {r : Region} {n : Nat} (hzero : ∀ i, n ≤ i → r.byte i = 0) (m : Nat) :
    r.upTo (n + m) = r.upTo n ++ List.replicate m 0 := by
  apply List.ext_getElem
  · simp
  · intro i hi hi'
    rw [getElem_upTo, List.getElem_append]
    split
    case isTrue h => rw [getElem_upTo]
    case isFalse h =>
      rw [List.getElem_replicate]
      rw [length_upTo] at h
      exact hzero i (by omega)

/-- The stored bytes are shown in the place of those that were there. -/
theorem upTo_store {r s : Region} {a n : Nat} {bs : ByteArray} (h : r.store a bs = .ok s)
    (hn : a + bs.size ≤ n) :
    s.upTo n = (r.upTo n).take a ++ bs.data.toList ++ (r.upTo n).drop (a + bs.size) := by
  have hbs : bs.data.toList.length = bs.size := rfl
  have htake : ((r.upTo n).take a).length = a := by
    rw [List.length_take, length_upTo]
    omega
  have hfront : ((r.upTo n).take a ++ bs.data.toList).length = a + bs.size := by
    rw [List.length_append, htake, hbs]
  apply List.ext_getElem
  · rw [List.length_append, List.length_drop, hfront, length_upTo, length_upTo]
    omega
  · intro i hi hi'
    rw [getElem_upTo, byte_store h]
    by_cases hmid : i < a + bs.size
    · rw [List.getElem_append_left (hfront.symm ▸ hmid)]
      by_cases hlow : i < a
      · rw [if_neg (by omega), List.getElem_append_left (htake.symm ▸ hlow), List.getElem_take,
          getElem_upTo]
      · have hin : i - a < bs.data.size := by
          rw [← Array.length_toList, hbs]
          omega
        rw [if_pos ⟨by omega, hmid⟩, List.getElem_append_right (by omega)]
        simp only [htake, Array.getElem_toList, Array.getElem?_eq_getElem hin, Option.getD_some]
    · rw [if_neg (by omega), List.getElem_append_right (by omega), List.getElem_drop, getElem_upTo,
        hfront, Nat.add_sub_cancel' (by omega)]

end Region

/-! ## One step after the other -/

namespace Source

/-- If every step does what is required and keeps an invariant, then what is seen is what must be
seen. -/
theorem observe_eq {σ : Type} {act : σ → Step → σ × Reply} {memory : σ → List UInt8}
    {capacity : Nat} {Inv : σ → Prop}
    (hstep : ∀ s step, Inv s → Inv (act s step).1
      ∧ (memory (act s step).1, (act s step).2) = required capacity (memory s) step)
    {s : σ} (hs : Inv s) (steps : List Step) :
    observe act memory s steps = contract capacity (memory s) steps := by
  induction steps generalizing s with
  | nil => rfl
  | cons step steps ih =>
      obtain ⟨hinv, hreq⟩ := hstep s step hs
      have hrest := ih hinv
      unfold contract at hrest ⊢
      rw [observe, observe, ← hreq]
      show _ :: observe act memory (act s step).1 steps = _
      rw [hrest]
      rfl

/-! ## Sources -/

/-- The source can hold `capacity` bytes and no more. -/
def CanHold (capacity : Nat) (s : Source) : Prop := ∀ n, s.Admits n ↔ n ≤ capacity

theorem memory_extend {s : Source} {n : Nat} (h : s.region.size + n < Region.bound) :
    ({ s with region := s.region.extend n h } : Source).memory
      = s.memory ++ List.replicate n 0 := by
  have hzero : ∀ i, s.region.size ≤ i → s.region.byte i = 0 := fun i hi => Region.byte_of_size_le hi
  calc (s.region.extend n h).upTo (s.region.extend n h).size
      = s.region.upTo (s.region.size + n) := by
        rw [Region.size_extend]
        exact Region.upTo_congr fun i _ => Region.byte_extend ..
    _ = s.memory ++ List.replicate n 0 := Region.upTo_add hzero n

/-- A source does in a step what is required of it. -/
theorem act_required {capacity : Nat} (s : Source) (step : Step) (hs : s.CanHold capacity) :
    (s.act step).1.CanHold capacity
      ∧ ((s.act step).1.memory, (s.act step).2) = required capacity s.memory step := by
  have hlength : s.memory.length = s.region.size := Region.length_upTo ..
  cases step with
  | grow bytes =>
      unfold act required
      rw [hlength]
      by_cases hfits : s.region.size + bytes ≤ capacity
      · have hadm := (hs _).2 hfits
        have hgrow : s.grow bytes = some (_, _) := dif_pos hadm
        simp only [hgrow, if_pos hfits]
        exact ⟨hs, by rw [memory_extend]⟩
      · have hgrow : s.grow bytes = none := dif_neg (mt (hs _).1 hfits)
        simp only [hgrow, if_neg hfits]
        exact ⟨hs, trivial⟩
  | store addr bytes =>
      unfold act required
      rw [hlength]
      by_cases hfits : addr + bytes.size ≤ s.region.size
      · obtain ⟨r, hstore⟩ : ∃ r, s.region.store addr bytes = .ok r := ⟨_, dif_pos hfits⟩
        have hmem : r.upTo r.size = s.memory.take addr ++ bytes.data.toList
            ++ s.memory.drop (addr + bytes.size) := by
          rw [Region.size_store hstore]
          exact Region.upTo_store hstore hfits
        simp only [hstore, if_pos hfits]
        exact ⟨hs, Prod.ext hmem rfl⟩
      · have hstore : s.region.store addr bytes = .error .outside := dif_neg hfits
        simp only [hstore, if_neg hfits]
        exact ⟨hs, trivial⟩

/-- All that is seen of a source is required of it. -/
theorem trace_eq {capacity : Nat} {s : Source} (hs : s.CanHold capacity) (steps : List Step) :
    s.trace steps = contract capacity s.memory steps :=
  observe_eq act_required hs steps

theorem canHold_buffer {capacity : Nat} (h : capacity ≤ maxBuffer) :
    (buffer capacity).CanHold capacity :=
  admits_buffer rfl h

/-- Rounding up to whole pages leaves whole pages as they are. -/
theorem round_pages {p n : Nat} (hp : p.isPowerOfTwo) (hpages : n % p = 0)
    (hlt : n + (p - 1) < 0x10000000000000000) :
    (n + (p - 1)) &&& (0xffffffffffffffff ^^^ (p - 1)) = n := by
  obtain ⟨j, rfl⟩ := hp
  obtain ⟨q, rfl⟩ := Nat.dvd_of_mod_eq_zero hpages
  have hpos := Nat.two_pow_pos j
  have hlast : 0xffffffffffffffff = 2 ^ 64 - 1 := rfl
  have hj : j ≤ 64 := (Nat.pow_le_pow_iff_right Nat.one_lt_two).1 (by omega)
  apply Nat.eq_of_testBit_eq
  intro i
  rw [Nat.testBit_and, Nat.testBit_xor, hlast, Nat.testBit_two_pow_sub_one,
    Nat.testBit_two_pow_sub_one, Nat.testBit_two_pow_mul_add _ (Nat.sub_lt hpos Nat.one_pos),
    Nat.testBit_two_pow_sub_one]
  by_cases hij : i < j
  · -- a bit that counts bytes within a page is cleared
    have h64 : i < 64 := Nat.lt_of_lt_of_le hij hj
    rw [Nat.testBit_two_pow_mul]
    simp [hij, h64, Nat.not_le.2 hij]
  · by_cases h64 : i < 64
    · rw [Nat.testBit_two_pow_mul]
      simp [hij, h64, Nat.not_lt.1 hij]
    · have hbig : 2 ^ j * q < 2 ^ i :=
        Nat.lt_of_lt_of_le (by omega) (Nat.pow_le_pow_right Nat.two_pos (Nat.not_lt.1 h64))
      rw [Nat.testBit_lt_two_pow hbig]
      simp [hij, h64]

/-- A mapping of whole pages is as long as it was asked for. -/
theorem mapping_eq {k : Kernel} {capacity : Nat} {s : Source} (hpower : k.pageSize.isPowerOfTwo)
    (hpages : capacity % k.pageSize = 0) (hs : mapping k capacity = .ok s) :
    ∃ h : k.grants capacity = true,
      s = ⟨.mapping, .empty, capacity, fun _ => k.bounded capacity h⟩ := by
  unfold mapping at hs
  simp only at hs
  split at hs
  case isFalse => cases hs
  case isTrue hlt =>
    have hround := round_pages hpower hpages hlt
    split at hs
    case isTrue => cases hs
    case isFalse =>
      split at hs
      case isFalse => cases hs
      case isTrue h =>
        simp only [hround] at h hs
        cases hs
        exact ⟨h, rfl⟩

end Source

/-! ## Mappings -/

namespace Arena

/-- The mapping has `capacity` bytes, and those that are not in use are zero. -/
structure Fresh (capacity : Nat) (a : Arena) : Prop where
  size : a.cells.size = capacity
  zero : ∀ i, a.brk ≤ i → a.cells.byte i = 0

/-- What is mapped for so many bytes, as it is documented: just as many, and all of them zero. -/
structure Mapped (capacity : Nat) (cells : Region) : Prop where
  size : cells.size = capacity
  zero : ∀ i, cells.byte i = 0

theorem Mapped.fresh {capacity : Nat} {cells : Region} (h : Mapped capacity cells) :
    (map cells).Fresh capacity :=
  ⟨h.size, fun i _ => h.zero i⟩

/-- Bytes in use can be written. -/
theorem store_eq {a : Arena} {addr : Nat} {bytes : ByteArray} {r : Region}
    (hfits : addr + bytes.size ≤ a.brk) (hstore : a.cells.store addr bytes = .ok r) :
    a.store addr bytes = some ⟨r, a.brk, Region.size_store hstore ▸ a.within⟩ := by
  unfold store
  rw [if_pos hfits]
  split
  case h_1 s hs =>
    cases hs.symm.trans hstore
    rfl
  case h_2 hs => cases hs.symm.trans hstore

/-- A mapping does in a step what is required of a source. The bytes that come into use when the
break is moved are zero because nothing is stored past it. -/
theorem act_required {capacity : Nat} (a : Arena) (step : Source.Step) (ha : a.Fresh capacity) :
    (a.act step).1.Fresh capacity
      ∧ ((a.act step).1.memory, (a.act step).2) = Source.required capacity a.memory step := by
  have hlength : a.memory.length = a.brk := Region.length_upTo ..
  have hsize := ha.size
  cases step with
  | grow bytes =>
      unfold act Source.required
      rw [hlength]
      by_cases hfits : a.brk + bytes ≤ capacity
      · -- no region is so long that the sum could overflow
        have hbound : a.brk + bytes < 0x10000000000000000 := by
          have := a.cells.size_lt
          omega
        have hgrow : a.grow bytes = some (_, _) := dif_pos ⟨hbound, hsize.symm ▸ hfits⟩
        simp only [hgrow, if_pos hfits]
        constructor
        · exact ⟨hsize, fun i hi => ha.zero i (Nat.le_trans (Nat.le_add_right ..) hi)⟩
        · exact Prod.ext (Region.upTo_add ha.zero bytes) rfl
      · have hgrow : a.grow bytes = none := dif_neg fun h => hfits (hsize ▸ h.2)
        simp only [hgrow, if_neg hfits]
        exact ⟨ha, trivial⟩
  | store addr bytes =>
      unfold act Source.required
      rw [hlength]
      by_cases hfits : addr + bytes.size ≤ a.brk
      · have hin : addr + bytes.size ≤ a.cells.size := Nat.le_trans hfits a.within
        obtain ⟨r, hcells⟩ : ∃ r, a.cells.store addr bytes = .ok r := ⟨_, dif_pos hin⟩
        -- the stored bytes end at the break or before it
        have hkept : ∀ i, a.brk ≤ i → r.byte i = 0 := by
          intro i hi
          rw [Region.byte_store hcells, if_neg (by omega)]
          exact ha.zero i hi
        simp only [store_eq hfits hcells, if_pos hfits]
        constructor
        · exact ⟨(Region.size_store hcells).trans hsize, hkept⟩
        · exact Prod.ext (Region.upTo_store hcells hfits) rfl
      · have hstore : a.store addr bytes = none := if_neg hfits
        simp only [hstore, if_neg hfits]
        exact ⟨ha, trivial⟩

/-- All that is seen of a mapping is required of a source. -/
theorem trace_eq {capacity : Nat} {a : Arena} (ha : a.Fresh capacity) (steps : List Source.Step) :
    a.trace steps = Source.contract capacity a.memory steps :=
  Source.observe_eq act_required ha steps

/-! ## Heaps in an arena -/

@[simp] theorem size_region (a : Arena) : a.region.size = a.brk := Region.size_front a.within

theorem byte_region (a : Arena) (i : Nat) :
    a.region.byte i = if i < a.brk then a.cells.byte i else 0 :=
  Region.byte_front a.within i

/-- The arena shows the bytes of the source, both have room for `capacity` bytes, and those that the
arena does not show are zero. -/
structure Backs (capacity : Nat) (s : Source) (a : Arena) : Prop where
  region : a.region = s.region
  room : s.CanHold capacity
  fresh : a.Fresh capacity

namespace Backs

variable {capacity : Nat} {s : Source} {a : Arena}

theorem of_memory (hmem : a.memory = s.memory) (hs : s.CanHold capacity) (ha : a.Fresh capacity) :
    Backs capacity s a := by
  have hbrk : a.brk = s.region.size := by
    rw [← Region.length_upTo a.cells a.brk, ← Region.length_upTo s.region s.region.size]
    exact congrArg List.length hmem
  refine ⟨Region.ext ((size_region a).trans hbrk) fun i => ?_, hs, ha⟩
  rw [byte_region]
  split
  case isTrue hi =>
    have hbyte : a.memory[i]? = s.memory[i]? := by rw [hmem]
    simpa [Arena.memory, Source.memory, Region.upTo, hi, hbrk ▸ hi] using hbyte
  case isFalse hi => rw [Region.byte_of_size_le (hbrk ▸ Nat.not_lt.1 hi)]

theorem brk (h : Backs capacity s a) : a.brk = s.region.size := by
  rw [← h.region, size_region]

theorem memory (h : Backs capacity s a) : a.memory = s.memory := by
  rw [Source.memory, ← h.brk, ← h.region]
  exact Region.upTo_congr fun i hi => by rw [byte_region, if_pos hi]

/-- Both do in a step what is required of a source. -/
theorem act (h : Backs capacity s a) (step : Source.Step) :
    Backs capacity (s.act step).1 (a.act step).1 ∧ (a.act step).2 = (s.act step).2 := by
  obtain ⟨hs, hsource⟩ := s.act_required step h.room
  obtain ⟨ha, harena⟩ := a.act_required step h.fresh
  have hsame : ((a.act step).1.memory, (a.act step).2)
      = ((s.act step).1.memory, (s.act step).2) := by
    rw [harena, hsource, h.memory]
  exact ⟨of_memory (congrArg Prod.fst hsame) hs ha, congrArg Prod.snd hsame⟩

theorem after (h : Backs capacity s a) (steps : List Source.Step) :
    Backs capacity (s.after steps) (a.after steps) := by
  induction steps generalizing s a with
  | nil => exact h
  | cons step steps ih => exact ih (h.act step).1

theorem grow (h : Backs capacity s a) (bytes : Nat) :
    (s.grow bytes = none ∧ a.grow bytes = none)
      ∨ ∃ t b base, s.grow bytes = some (t, base) ∧ a.grow bytes = some (b, base)
        ∧ Backs capacity t b := by
  obtain ⟨hbacks, hreply⟩ := h.act (.grow bytes)
  unfold Source.act Arena.act at hbacks hreply
  rcases hs : s.grow bytes with _ | ⟨t, base⟩
  · rcases ha : a.grow bytes with _ | ⟨b, base'⟩
    · exact .inl ⟨rfl, rfl⟩
    · simp only [hs, ha] at hreply
      cases hreply
  · rcases ha : a.grow bytes with _ | ⟨b, base'⟩
    · simp only [hs, ha] at hreply
      cases hreply
    · simp only [hs, ha] at hbacks hreply
      cases hreply
      exact .inr ⟨t, b, base, rfl, rfl, hbacks⟩

/-- Bytes that are changed in use are stored there, and those past the break stay zero. -/
theorem edit (h : Backs capacity s a) {α : Type} {f : Region → Except Fault (Region × α)}
    (hf : ∀ r x, f s.region = .ok (r, x) → r.size = s.region.size) :
    Fault.Agreed (Fault.WithAnswer (Backs capacity)) (s.edit f) (a.edit f) := by
  have hbrk := h.brk
  rcases s with ⟨kind, region, limit, granted⟩
  have hregion : a.region = region := h.region
  rw [Source.edit, Arena.edit, hregion]
  cases hrun : f region with
  | error e => exact .error e
  | ok x =>
      rcases x with ⟨r, x⟩
      have hsize : r.size = a.brk := (hf r x hrun).trans hbrk.symm
      have hfits : 0 + r.bytes.size ≤ a.brk := by
        rw [Nat.zero_add]
        exact Nat.le_of_eq hsize
      obtain ⟨t, hstore⟩ : ∃ t, a.cells.store 0 r.bytes = .ok t :=
        ⟨_, dif_pos (Nat.le_trans hfits a.within)⟩
      have hin : ∀ i, 0 ≤ i ∧ i < 0 + r.bytes.size ↔ i < a.brk := by
        intro i
        rw [Nat.zero_add, ← hsize]
        exact and_iff_right (Nat.zero_le i)
      simp only [Fault.ok_bind, store_eq hfits hstore]
      refine .pure ⟨⟨Region.ext ((size_region _).trans hsize.symm) fun i => ?_, h.room,
        (Region.size_store hstore).trans h.fresh.size, fun i hi => ?_⟩, rfl⟩
      · rw [byte_region]
        simp only [Region.byte_store hstore, hin, Nat.sub_zero]
        split
        case isTrue hi => rw [Region.byte_eq_getElem?]
        case isFalse hi => rw [Region.byte_of_size_le (hsize ▸ Nat.not_lt.1 hi)]
      · rw [Region.byte_store hstore, if_neg (mt (hin i).1 (Nat.not_lt.2 hi))]
        exact h.fresh.zero i hi

theorem simulation : Storage.Simulation (Backs capacity) :=
  ⟨fun h => h.region, fun h => h.grow, fun h _ _ hf => h.edit hf⟩

end Backs

end Arena

/-! ## One for the other -/

namespace Source

variable {s t : Source}

theorem CanHold.akin {capacity : Nat} (hs : s.CanHold capacity) (ht : t.CanHold capacity)
    (hregion : t.region = s.region) : s.Akin t :=
  ⟨hregion, fun n => (ht n).trans (hs n).symm⟩

/-- Akin sources are akin after a step. -/
theorem Akin.act (hst : s.Akin t) (step : Step) : (s.act step).1.Akin (t.act step).1 := by
  cases step with
  | grow bytes =>
      unfold Source.act
      rcases hst.grow bytes with ⟨hs, ht⟩ | ⟨s', t', base, hs, ht, hnext⟩
      · simp only [hs, ht]
        exact hst
      · simp only [hs, ht]
        exact hnext
  | store addr bytes =>
      simp only [Source.act, hst.region]
      cases s.region.store addr bytes with
      | error f => exact hst
      | ok r => exact ⟨rfl, hst.admits⟩

/-- And after any steps. -/
theorem Akin.after (hst : s.Akin t) (steps : List Step) : (s.after steps).Akin (t.after steps) := by
  induction steps generalizing s t with
  | nil => exact hst
  | cons step steps ih => exact ih (hst.act step)

/-- With a capacity of whole pages nothing tells a mapping from a buffer, be the mapping zeros
behind a break or a region that grows. Whatever is done, all of them do what the contract of a
source requires, and a heap that is laid out in the one afterwards is in all that is seen of it a
heap in the others. -/
theorem mapping_agrees {k : Kernel} {capacity : Nat} {m : Source} {cells : Region}
    (hpower : k.pageSize.isPowerOfTwo) (hpages : capacity % k.pageSize = 0)
    (hm : mapping k capacity = .ok m) (hcells : Arena.Mapped capacity cells) :
    (∀ steps, (buffer capacity).trace steps = contract capacity [] steps
        ∧ m.trace steps = contract capacity [] steps
        ∧ (Arena.map cells).trace steps = contract capacity [] steps)
      ∧ ∀ steps config calls,
        Client.session ((buffer capacity).after steps) config calls
            = Client.session (m.after steps) config calls
          ∧ Client.session ((buffer capacity).after steps) config calls
            = Client.session ((Arena.map cells).after steps) config calls := by
  obtain ⟨hgrants, rfl⟩ := mapping_eq hpower hpages hm
  have hbuffer : (buffer capacity).CanHold capacity :=
    canHold_buffer (Nat.le_of_lt_succ (k.bounded capacity hgrants))
  have hmapping :
      (⟨.mapping, .empty, capacity, fun _ => k.bounded capacity hgrants⟩ : Source).CanHold
      capacity := fun n => Iff.rfl
  have hbacks : Arena.Backs capacity (buffer capacity) (Arena.map cells) :=
    .of_memory rfl hbuffer hcells.fresh
  refine ⟨?_, ?_⟩
  · intro steps
    exact ⟨trace_eq hbuffer steps, trace_eq hmapping steps, Arena.trace_eq hcells.fresh steps⟩
  · intro steps config calls
    exact ⟨Client.session_eq Akin.simulation ((hbuffer.akin hmapping rfl).after steps) config calls,
      Client.session_eq Arena.Backs.simulation (hbacks.after steps) config calls⟩

/-- Two pages: a byte is written, a growth past every number is refused, and the next one is
granted. -/
theorem two_pages_agree :
    ∃ m cells, Kernel.amd64.pageSize.isPowerOfTwo ∧ 8192 % Kernel.amd64.pageSize = 0
      ∧ mapping .amd64 8192 = .ok m ∧ Arena.Mapped 8192 cells ∧
      let steps := [.grow 3, .store 1 ⟨#[7]⟩, .grow 0xffffffffffffffff, .grow 2, .store 4 ⟨#[8, 9]⟩]
      let seen := [(.grown (some 0), [0, 0, 0]), (.stored true, [0, 7, 0]),
        (.grown none, [0, 7, 0]), (.grown (some 3), [0, 7, 0, 0, 0]),
        (.stored false, [0, 7, 0, 0, 0])]
      (buffer 8192).trace steps = seen ∧ m.trace steps = seen ∧ (Arena.map cells).trace steps = seen
        ∧ ∀ config calls,
          Client.session ((buffer 8192).after steps) config calls
              = Client.session (m.after steps) config calls
            ∧ Client.session ((buffer 8192).after steps) config calls
              = Client.session ((Arena.map cells).after steps) config calls := by
  have hpower : Kernel.amd64.pageSize.isPowerOfTwo := ⟨12, rfl⟩
  have hpages : 8192 % Kernel.amd64.pageSize = 0 := by decide
  have hgrants : Kernel.amd64.grants 8192 = true := by decide
  have hm : mapping .amd64 8192
      = .ok ⟨.mapping, .empty, 8192, fun _ => Kernel.amd64.bounded 8192 hgrants⟩ := rfl
  obtain ⟨cells, hcells⟩ : ∃ cells, Arena.Mapped 8192 cells := by
    refine ⟨Region.empty.extend 8192 (by decide), ?_, ?_⟩
    · rw [Region.size_extend]
      rfl
    · intro i
      rw [Region.byte_extend]
      exact Region.byte_of_size_le (Nat.zero_le i)
  obtain ⟨htrace, hsession⟩ := mapping_agrees hpower hpages hm hcells
  refine ⟨_, cells, hpower, hpages, hm, hcells, ?_⟩
  intro steps seen
  have hseen : contract 8192 [] steps = seen := by decide
  obtain ⟨hbuffer, hmapping, harena⟩ := htrace steps
  exact ⟨hbuffer.trans hseen, hmapping.trans hseen, harena.trans hseen, hsession steps⟩

end Source

end BoundaryTag
