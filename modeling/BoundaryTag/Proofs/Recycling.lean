import BoundaryTag.Proofs.FreedInAnyOrder
import BoundaryTag.Proofs.FreeSupply
import BoundaryTag.Proofs.Requests

/-!
# Recycling — freed memory comes back first

A block that becomes free takes its neighbours in and comes to the front of the list of its class,
so it is the first that is tried there.

* `Plan.free_place`: to free what was just cut from a free block restores the blocks. In the lists,
  only that block has moved, to the front of its own (`Plan.recycle_eq`).
* `Plan.free_covering`: what is free after that starts where the block started, or at the free block
  before it, and is in front of its list.
* `Plan.allocate_front`: the block in front of a list is handed out for a request of its class.
* `Client.Reaches.undone` and `Client.Reaches.reused` say this of every state that a client reaches.
-/

namespace BoundaryTag

open Extent

namespace Extent

variable {a x m : Nat} {es pre post : List Extent} {p : Bool}

/-- A free extent at the end is the last one. -/
theorem lastFree_of_located (hl : Large es) (hx : (x, ⟨m, false⟩) ∈ located a es)
    (hend : x + m = stop a es) : lastFree p es = true := by
  rcases exists_split hx with ⟨pre, post, rfl, hpre⟩
  rcases Large.append.1 hl with ⟨-, hrest⟩
  cases post with
  | nil => exact lastFree_concat
  | cons f post =>
      -- what follows would have at least sixteen bytes
      have hf := (Large.cons.1 (Large.cons.1 hrest).2).1
      have hle := le_stop (x + m + f.size) post
      rw [stop_append, ← hpre, stop_cons, stop_cons] at hend
      simp only [minBlock] at hf hend
      omega

/-- No free extent ends where the last one before is in use. -/
theorem stop_ne_of_lastFree (hl : Large (pre ++ post)) (hlast : lastFree p pre = false)
    (hx : (x, ⟨m, false⟩) ∈ located a (pre ++ post)) : x + m ≠ stop a pre := by
  intro hend
  rcases mem_located_append.1 hx with hin | hin
  · have hfree := lastFree_of_located (p := p) (Large.append.1 hl).1 hin hend
    rw [hlast] at hfree
    cases hfree
  · have hafter := (located_bounds hin).1
    have hm := hl.size hx
    simp only at hm
    omega

end Extent

namespace Plan

variable {p : Plan} {config : Config} {admits : Nat → Bool} {a n m need size : Nat}
  {lists : Nat → List Nat}

/-! ## There and back -/

/-- The block at `a` comes to the front of the list for `n` bytes. -/
def recycle (lists : Nat → List Nat) (a n : Nat) : Nat → List Nat :=
  push (drop lists a (a + 1)) a n

/-- No other listed block is inside of a free one. -/
theorem drop_located (hl : Large p.extents) (hlisted : Listed p.start p.extents p.lists 0 0)
    (ha : (a, ⟨n, false⟩) ∈ located p.start p.extents) :
    drop p.lists a (a + n) = drop p.lists a (a + 1) := by
  have hn := hl.size ha
  funext index
  refine List.filter_congr fun y hy => ?_
  rcases hlisted.located hy with ⟨k, hk, -, -⟩
  rw [decide_eq_decide]
  constructor
  · intro hout hin
    exact hout ⟨hin.1, by simp only at hn; omega⟩
  · intro hout hin
    have heq := (located_inside hl ha hk hin.1 hin.2).1
    exact hout ⟨hin.1, by omega⟩

/-- What was cut from a free block and is freed joins the rest again. -/
theorem free_place (hl : Large p.extents) (ht : Tidy false p.extents)
    (hlisted : Listed p.start p.extents p.lists 0 0)
    (ha : (a, ⟨n, false⟩) ∈ located p.start p.extents) (hmin : minBlock ≤ need) (hfit : need ≤ n) :
    ((p.place a need).1.free a).1 = ⟨p.lo, p.extents, recycle p.lists a n⟩ := by
  have hskip := drop_located hl hlisted ha
  rcases exists_place hl ha hmin hfit with
    ⟨pre, post, m, f, lists, hes, hx, hplace, hm, hsum, hcut, hdrop⟩
  rw [hes] at hl ht
  rcases Tidy.append.1 ht with ⟨hpre, hlast, hpost⟩
  rcases Large.append.1 hl with ⟨hlpre, hlrest⟩
  have hgap : Large (gap f) := by
    intro e he
    rcases hcut with ⟨-, hf⟩ | ⟨rfl, -⟩
    · have hne : f ≠ 0 := Nat.ne_of_gt (Nat.lt_of_lt_of_le (by decide) hf)
      rw [gap_of_ne hne] at he
      rw [List.mem_singleton.1 he]
      exact hf
    · cases he
  have hlarge : Large (pre ++ gap 0 ++ ⟨m, true⟩ :: (gap f ++ post)) := by
    rw [gap_zero, List.append_nil]
    refine Large.append.2 ⟨hlpre, Large.cons.2 ⟨hm, ?_⟩⟩
    exact Large.append.2 ⟨hgap, (Large.cons.1 hlrest).2⟩
  -- there is no gap before the block, and the rest is the gap after it
  have hfree := free_between lists p.lo hlarge hx (by omega : 0 + m + f = n) hpre (hlast rfl) hpost
  rw [gap_zero, List.append_nil] at hfree
  have hfree : (⟨p.lo, pre ++ ⟨m, true⟩ :: (gap f ++ post), lists⟩ : Plan).free a = _ := hfree
  rw [hplace, hfree, hdrop, hskip, hes]
  rfl

/-- A listed block comes to the front of its list, and all other lists stay as they are. -/
theorem recycle_eq (hl : Large p.extents) (hlisted : Listed p.start p.extents p.lists 0 0)
    (hnd : ∀ index, (p.lists index).Nodup) (ha : (a, ⟨n, false⟩) ∈ located p.start p.extents)
    (index : Nat) : recycle p.lists a n index
      = if index = SizeClass.of n then a :: (p.lists index).erase a else p.lists index := by
  unfold recycle push
  split
  case isTrue hindex =>
    have hmem : a ∈ p.lists index := (hlisted index a).2 ⟨by omega, n, ha, hindex.symm⟩
    rcases List.append_of_mem hmem with ⟨l₁, l₂, hsplit⟩
    have hbefore : a ∉ l₁ := by
      intro hin
      have hnd := hnd index
      rw [hsplit, List.nodup_append] at hnd
      exact hnd.2.2 a hin a List.mem_cons_self rfl
    rw [FreeLists.drop_split hsplit (hnd index), hsplit, List.erase_append_right _ hbefore,
      List.erase_cons_head]
  case isFalse hindex =>
    refine FreeLists.drop_eq_self ?_
    intro y hy hin
    rcases hlisted.located hy with ⟨k, hk, hclass, -⟩
    have hn := hl.size ha
    have heq := located_inside hl ha hk hin.1 (by simp only at hn ⊢; omega)
    cases heq.2
    exact hindex hclass.symm

/-! ## In front of a list -/

/-- The block that was freed is a part of a free one in front of its list. The free one starts at
the block, or at the free block before it. -/
theorem free_covering (hl : Large p.extents) (ht : Tidy false p.extents)
    (ha : (a, ⟨n, true⟩) ∈ located p.start p.extents) :
    ∃ x m lists, (p.free a).1.lists = push lists x m
      ∧ (x, ⟨m, false⟩) ∈ located p.start (p.free a).1.extents ∧ x ≤ a ∧ a + n ≤ x + m
      ∧ ((∃ k, (x, ⟨k, false⟩) ∈ located p.start p.extents ∧ x + k = a)
        ∨ (x = a ∧ ∀ y k, (y, ⟨k, false⟩) ∈ located p.start p.extents → y + k ≠ a)) := by
  rcases p with ⟨lo, es, lists⟩
  rcases ht.exists_around hl ha with ⟨pre, b, f, post, hes, hx, hpre, hpost⟩
  obtain rfl : es = pre ++ gap b ++ ⟨n, true⟩ :: (gap f ++ post) := hes
  have hbefore := (Tidy.append.1 (Tidy.append.1 ht).1).1
  have hfree := free_between lists lo hl rfl rfl hbefore hpre hpost
  have hx : stop (lo + frameSize) pre + b = a := hx
  rw [hx] at hfree
  rw [hfree]
  refine ⟨_, b + n + f, _, rfl, mem_located_split _ _ _ _, by omega, by omega, ?_⟩
  by_cases hb : b = 0
  · right
    subst hb
    refine ⟨hx, ?_⟩
    intro y k hy
    rw [← hx]
    exact stop_ne_of_lastFree (List.append_assoc .. ▸ hl) hpre (List.append_assoc .. ▸ hy)
  · exact .inl ⟨b, mem_located_before rfl hb, hx⟩

/-- The block in front of a list is tried first. -/
theorem firstFit_front (hlists : p.lists = push lists a n) (hsize : p.sizeAt a = n)
    (hfit : need ≤ n) (hclass : SizeClass.of need = SizeClass.of n) : p.firstFit need = some a := by
  have hindex : SizeClass.of need < (List.range SizeClass.count).length := by
    rw [List.length_range]
    exact SizeClass.of_lt_count need
  have hfront : p.lists (SizeClass.of need) = a :: lists (SizeClass.of need) := by
    rw [hlists, push, if_pos hclass]
  have hfits : decide (need ≤ p.sizeAt a) = true := decide_eq_true (hsize.symm ▸ hfit)
  rw [firstFit, List.drop_eq_getElem_cons hindex, List.getElem_range, List.findSome?_cons, hfront,
    List.find?_cons, hfits]

theorem allocate_front (hlists : p.lists = push lists a n) (hsize : p.sizeAt a = n)
    (hpos : 0 < size) (hneed : (blockFor size).filter (· ≤ maxBlock) = some need) (hfit : need ≤ n)
    (hclass : SizeClass.of need = SizeClass.of n) :
    p.allocate config admits size = ((p.place a need).1, .ok (some a), (p.place a need).2) := by
  rw [allocate, if_neg (Nat.ne_of_gt hpos), hneed]
  simp only
  rw [firstFit_front hlists hsize hfit hclass]

end Plan

/-! ## Clients -/

/-- The block has the byte at `a`, or its header would have if there were one. -/
def ChainBlock.Covers (b : ChainBlock) (a : Nat) : Prop := b.addr ≤ a ∧ a < b.addr + b.tag.size

namespace Client

variable {source : Source} {config : Config} {c d : Client} {es : List Extent}
  {lists : Nat → List Nat} {p size : Nat}

/-- What was just kept is forgotten. -/
theorem forget_cons {live : List (Nat × Nat)} (hp : p ∉ live.map Prod.fst) :
    forget ((p, size) :: live) (some p) = live := by
  rw [forget, List.filter_cons_of_neg (by simp), List.filter_eq_self]
  intro x hx
  have hne : x.1 ≠ p := fun heq => hp (heq ▸ List.mem_map.2 ⟨x, hx, rfl⟩)
  simpa using hne

/-- A live pointer is freed, as the plan says. -/
theorem free_follows (hs : c.heap.region.Settled c.heap.lo es lists) (hk : c.Keeps es)
    (hp : p ∈ c.pointers) :
    ∃ d q events, c.step (.free (some p)) = .ok (d, .done)
      ∧ (c.heap.planOf es lists).free p = (q, events) ∧ d.live = forget c.live (some p)
      ∧ c.heap.Follows d.heap q events ∧ d.Keeps q.extents := by
  have hallows : c.Allows (.free (some p)) := owns_of_mem hp
  rcases free_step hk hp with ⟨d, hstep, -, hlive, -⟩
  rcases step_follows hs hk hallows with ⟨d', answer, q, events, hstep', hplan, hf, hk', -⟩
  cases hstep'.symm.trans hstep
  cases hplan
  exact ⟨d, _, _, hstep, rfl, hlive, hf, hk'⟩

/-- A pointer that is handed out without growth is the block that the search finds. -/
theorem allocate_found (hs : c.heap.region.Settled c.heap.lo es lists) (hk : c.Keeps es)
    (hstep : c.step (.allocate size) = .ok (d, .pointer (some p)))
    (hsame : d.heap.region.size = c.heap.region.size) :
    ∃ need q events, blockFor size = some need ∧ minBlock ≤ need
      ∧ (c.heap.planOf es lists).firstFit need = some p
      ∧ q = ((c.heap.planOf es lists).place p need).1 ∧ d.live = (p, size) :: c.live
      ∧ c.heap.Follows d.heap q events ∧ d.Keeps q.extents := by
  rcases Fault.bind_eq_ok.1 hstep with ⟨⟨h, x⟩, hrun, hd⟩
  cases hd
  have hallows : c.Allows (.allocate size) := trivial
  rcases step_follows hs hk hallows with
    ⟨d, answer, q, events, hstep', hplan, hf, hk', -⟩
  cases hstep'.symm.trans hstep
  rcases hq : (c.heap.planOf es lists).allocate c.heap.config c.heap.admits size with
    ⟨q', granted, events'⟩
  rw [Plan.step, hq] at hplan
  cases granted with
  | error e => cases hplan
  | ok x =>
      cases hplan
      rcases Plan.allocate_eq_some hq with ⟨need, q₀, hneed, hsup, rfl⟩
      -- the heap has not grown, so the plan has not either
      have htop : q₀.top = (c.heap.planOf es lists).top := by
        rw [← Plan.top_place q₀ p need, ← hf.size_eq, ← (Heap.Follows.refl hs).size_eq]
        exact hsame
      rcases hsup.eq_self htop with ⟨rfl, hfit⟩
      exact ⟨need, _, _, (Option.filter_eq_some_iff.1 hneed).1, (Heap.blockFor_eq_some hneed).1,
        hfit, rfl, rfl, hf, hk'⟩

/-- In every state that a client reaches, whatever is handed out without growth can be freed at
once, and then everything is as it was, except that the free block that served the request is now
the first of its list. -/
theorem Reaches.undone (hc : Reaches source config c)
    (hstep : c.step (.allocate size) = .ok (d, .pointer (some p)))
    (hsame : d.heap.region.size = c.heap.region.size) :
    ∃ e s t need b, d.Allows (.free (some p)) ∧ d.step (.free (some p)) = .ok (e, .done)
      ∧ e.live = c.live ∧ c.heap.audit = .ok (.survey s) ∧ e.heap.audit = .ok (.survey t)
      ∧ t.chain.outline = s.chain.outline
      ∧ blockFor size = some need ∧ c.heap.lists.firstFit c.heap.region need = .ok (some p)
      ∧ b ∈ s.chain.blocks ∧ b.isFree = true ∧ b.addr = p ∧ need ≤ b.tag.size
      ∧ p ∈ s.members (SizeClass.of b.tag.size)
      ∧ ∀ index, t.members index = if index = SizeClass.of b.tag.size then
          p :: (s.members index).erase p else s.members index := by
  rcases hc.keeps with ⟨es, hk⟩
  rcases hk.settled with ⟨lists, hs⟩
  rcases allocate_found hs hk hstep hsame with
    ⟨need, q, events, hneed, hmin, hfit, rfl, hlive, hf, hk₁⟩
  have hsearch : c.heap.lists.firstFit c.heap.region need = .ok (some p) :=
    (hs.holds.firstFit_planned need).trans (congrArg Except.ok hfit)
  rcases hs.holds.firstFit_located hsearch with ⟨n, hn, hle⟩
  have hp : p ∈ d.pointers := by
    rw [pointers, hlive]
    exact List.mem_cons_self
  -- the block is freed again
  have hs₁ : d.heap.region.Settled d.heap.lo _ _ := hf.lo.symm ▸ hf.settled
  rcases free_follows hs₁ hk₁ hp with ⟨e, q₂, events₂, hfree, hplan, hlive₂, hf₂, hk₂⟩
  rw [hf.planOf_eq] at hplan
  have hq₂ : q₂ = ⟨c.heap.lo, es, Plan.recycle lists p n⟩ := by
    have hback :=
      Plan.free_place (p := c.heap.planOf es lists) hs.large hs.tidy hs.listed hn hmin hle
    rw [hplan] at hback
    exact hback
  subst hq₂
  have hlo : e.heap.lo = c.heap.lo := hf₂.lo.trans hf.lo
  have hs₂ : e.heap.region.Settled e.heap.lo es (Plan.recycle lists p n) :=
    hf₂.lo.symm ▸ hf₂.settled
  rcases Heap.blockAt_mem_surveyOf hs.holds hn with ⟨hb, hbfree, hbsize⟩
  have hmem : p ∈ lists (SizeClass.of n) := (hs.listed _ p).2 ⟨by omega, n, hn, rfl⟩
  refine ⟨e, _, _, need, c.heap.region.blockAt p, owns_of_mem hp, hfree, ?_, Heap.audit_eq hs,
    Heap.audit_eq hs₂, ?_, hneed, hsearch, hb, hbfree, rfl, hbsize.symm ▸ hle, ?_, ?_⟩
  · -- the pointer was not live before
    have hnd := pointers_nodup hk₁
    rw [pointers, hlive] at hnd
    have hnew : p ∉ c.pointers := (List.nodup_cons.1 hnd).1
    rw [hlive₂, hlive]
    exact forget_cons hnew
  · rw [Heap.outline_surveyOf hs, Heap.outline_surveyOf hs₂, hlo]
  · rw [hbsize, Heap.members_surveyOf, if_pos (SizeClass.of_lt_count n)]
    exact hmem
  · intro index
    rw [hbsize, Heap.members_surveyOf, Heap.members_surveyOf]
    by_cases hindex : index < SizeClass.count
    · rw [if_pos hindex, if_pos hindex]
      exact Plan.recycle_eq (p := c.heap.planOf es lists) hs.large hs.listed hs.holds.once hn index
    · have hne : index ≠ SizeClass.of n := fun heq => hindex (heq ▸ SizeClass.of_lt_count n)
      rw [if_neg hindex, if_neg hindex, if_neg hne]

/-- A block is split that is the second of its list, and is the first of it afterwards. -/
theorem undone_behind_another :
    ∃ c d, Reaches (.buffer 4096) ⟨184, 64⟩ c
      ∧ c.step (.allocate 68) = .ok (d, .pointer (some 208))
      ∧ d.heap.region.size = c.heap.region.size
      ∧ ∃ e s t, d.step (.free (some 208)) = .ok (e, .done) ∧ c.heap.audit = .ok (.survey s)
        ∧ e.heap.audit = .ok (.survey t) ∧ t.chain.outline = s.chain.outline
        ∧ s.members 3 = [128, 208] ∧ t.members 3 = [208, 128] := by
  have hrun : (runFrom (.buffer 4096) ⟨184, 64⟩ [.allocate 60, .allocate 12, .allocate 84,
      .allocate 12, .free (some 208), .free (some 128)]).map (fun c =>
        ((c.step (.allocate 68)).toOption.map fun x =>
          (x.2, decide (x.1.heap.region.size = c.heap.region.size)),
          c.heap.survey?.map fun s => (s.members 3, s.chain.located)))
        = some (some (.pointer (some 208), true), some ([128, 208],
            [(128, ⟨64, false⟩), (192, ⟨16, true⟩), (208, ⟨88, false⟩), (296, ⟨16, true⟩)])) := by
    decide +kernel
  rcases Option.map_eq_some_iff.1 hrun with ⟨c, hrun, hc⟩
  have hreach := reaches_iff.2 ⟨_, hrun⟩
  rcases Prod.mk.inj hc with ⟨hcall, haudit⟩
  rcases Option.map_eq_some_iff.1 hcall with ⟨⟨d, answer⟩, hstep, hd⟩
  rcases Prod.mk.inj hd with ⟨rfl, hsize⟩
  have hstep := Fault.toOption_eq_some.1 hstep
  have hsame : d.heap.region.size = c.heap.region.size := of_decide_eq_true hsize
  rcases hreach.undone hstep hsame with
    ⟨e, s, t, need, b, -, hfree, -, hs, ht, houtline, -, -, hb, -, haddr, -, -, hmembers⟩
  rw [Heap.survey?_eq hs] at haudit
  rcases Prod.mk.inj (Option.some.inj haudit) with ⟨hold, hblocks⟩
  -- the block that served the request has 88 bytes
  have hmem : (b.addr, ⟨b.tag.size, b.tag.allocated⟩) ∈ s.chain.located :=
    List.mem_map.2 ⟨b, hb, rfl⟩
  rw [hblocks, haddr] at hmem
  have hb' : b.tag.size = 88 ∧ b.tag.allocated = false := by simpa using hmem
  refine ⟨c, d, hreach, hstep, hsame, e, s, t, hfree, hs, ht, houtline, hold, ?_⟩
  rw [hmembers 3, hb'.1, hold]
  rfl

/-- A request of its class is served by the block in front of a list. -/
theorem allocate_served {n need : Nat}
    (hs : c.heap.region.Settled c.heap.lo es (Plan.push lists p n)) (hk : c.Keeps es)
    (hp : (p, ⟨n, false⟩) ∈ located (c.heap.lo + frameSize) es) (hpos : 0 < size)
    (hneed : blockFor size = some need) (hfit : need ≤ n)
    (hclass : SizeClass.of need = SizeClass.of n) :
    ∃ d, c.step (.allocate size) = .ok (d, .pointer (some p))
      ∧ d.heap.region.size = c.heap.region.size := by
  have hmax : n ≤ maxBlock := by
    rcases hs.drawn.tagsAt hp with ⟨b, ht⟩
    have hlt := ht.size_lt
    have hmod := ht.size_mod
    simp only [maxBlock] at *
    omega
  have hblock : (blockFor size).filter (· ≤ maxBlock) = some need :=
    Option.filter_eq_some_iff.2 ⟨hneed, decide_eq_true (Nat.le_trans hfit hmax)⟩
  have hsize : (c.heap.planOf es (Plan.push lists p n)).sizeAt p = n :=
    Plan.sizeAt_of_mem (p := c.heap.planOf es (Plan.push lists p n)) hs.large hp
  have hallows : c.Allows (.allocate size) := trivial
  rcases step_follows hs hk hallows with
    ⟨d, answer, q, events, hstep, hplan, hf, -, -⟩
  rw [Plan.step, Plan.allocate_front rfl hsize hpos hblock hfit hclass] at hplan
  cases hplan
  refine ⟨d, hstep, ?_⟩
  calc d.heap.region.size = _ := hf.size_eq
    _ = (c.heap.planOf es (Plan.push lists p n)).top := Plan.top_place _ p need
    _ = c.heap.region.size := (Heap.Follows.refl hs).size_eq.symm

/-- In every state that a client reaches, a live pointer that is freed becomes part of a free block,
which starts at it or at the free block before it. A request that this block has room for and that
is of its class is served by it next, without growth, whatever else is in the lists. -/
theorem Reaches.reused (hc : Reaches source config c) (hp : p ∈ c.pointers) :
    ∃ d s t, c.step (.free (some p)) = .ok (d, .done) ∧ c.heap.audit = .ok (.survey s)
      ∧ d.heap.audit = .ok (.survey t) ∧ (∃ b ∈ t.chain.blocks, b.isFree = true ∧ b.Covers p)
      ∧ ∀ b ∈ t.chain.blocks, b.isFree = true → b.Covers p →
        ((∃ a ∈ s.chain.blocks, a.isFree = true ∧ a.addr + a.tag.size = p ∧ b.addr = a.addr)
          ∨ (b.addr = p ∧ ∀ a ∈ s.chain.blocks, a.isFree = true → a.addr + a.tag.size ≠ p))
        ∧ ∀ size need, 0 < size → blockFor size = some need → need ≤ b.tag.size →
          SizeClass.of need = SizeClass.of b.tag.size →
          ∃ e, d.step (.allocate size) = .ok (e, .pointer (some b.addr))
            ∧ e.heap.region.size = d.heap.region.size := by
  rcases hc.keeps with ⟨es, hk⟩
  rcases hk.settled with ⟨lists, hs⟩
  rcases exists_used hk hp with ⟨n, hn⟩
  rcases free_follows hs hk hp with ⟨d, q, events, hstep, hplan, -, hf, hk₁⟩
  rcases Plan.free_covering (p := c.heap.planOf es lists) hs.large hs.tidy (mem_inUse.1 hn) with
    ⟨x, m, kept, hlists, hx, hxp, hpx, hstart⟩
  rw [hplan] at hlists hx
  have hs₁ : d.heap.region.Settled d.heap.lo q.extents (Plan.push kept x m) := by
    rw [hf.lo, ← hlists]
    exact hf.settled
  have hx : (x, ⟨m, false⟩) ∈ located (d.heap.lo + frameSize) q.extents := by
    rw [hf.lo]
    exact hx
  have hn16 := hs.large.size (mem_inUse.1 hn)
  simp only at hn16
  rcases Heap.blockAt_mem_surveyOf hs₁.holds hx with ⟨hb, hbfree, hbsize⟩
  refine ⟨d, _, _, hstep, Heap.audit_eq hs, Heap.audit_eq hs₁, ⟨_, hb, hbfree, hxp, ?_⟩, ?_⟩
  · rw [hbsize]
    show p < x + m
    omega
  · intro b hb hbfree hcovers
    -- there is one block with this byte
    have hloc := ((Heap.mem_free_surveyOf hs₁.holds).1 ⟨hb, hbfree⟩).1
    have hpm : p < x + m := by omega
    rcases located_unique p hs₁.large hloc hx hcovers.1 hcovers.2 hxp hpm with ⟨rfl, hext⟩
    have hm : b.tag.size = m := congrArg Extent.size hext
    refine ⟨?_, ?_⟩
    · rcases hstart with ⟨k, hk, hend⟩ | ⟨heq, halone⟩
      · left
        rcases Heap.blockAt_mem_surveyOf hs.holds hk with ⟨ha, hafree, hasize⟩
        refine ⟨_, ha, hafree, ?_, (Region.addr_blockAt _ _).symm⟩
        rw [Region.addr_blockAt, hasize]
        exact hend
      · right
        refine ⟨heq, ?_⟩
        intro a ha hafree
        exact halone _ _ ((Heap.mem_free_surveyOf hs.holds).1 ⟨ha, hafree⟩).1
    · intro size need hpos hneed hfit hclass
      rw [hm] at hfit hclass
      exact allocate_served hs₁ hk₁ hx hpos hneed hfit hclass

/-- A block between two free ones is freed. All three become one, which serves the next request. -/
theorem reused_after_merging :
    ∃ c d t b, Reaches (.buffer 4096) ⟨64, 64⟩ c ∧ c.live = [(176, 12), (144, 12)]
      ∧ c.step (.free (some 144)) = .ok (d, .done) ∧ d.heap.audit = .ok (.survey t)
      ∧ b ∈ t.chain.blocks ∧ b.addr = 128 ∧ b.tag.size = 48
      ∧ ∃ e, d.step (.allocate 28) = .ok (e, .pointer (some 128))
        ∧ e.heap.region.size = d.heap.region.size := by
  have hrun : (runFrom (.buffer 4096) ⟨64, 64⟩ [.allocate 12, .allocate 12, .allocate 12,
      .allocate 12, .free (some 128), .free (some 160)]).map (fun c => (c.live,
        (c.step (.free (some 144))).toOption.map fun x => x.1.heap.survey?.map fun t =>
          t.chain.located)) = some ([(176, 12), (144, 12)],
            some (some [(128, ⟨48, false⟩), (176, ⟨16, true⟩)])) := by
    decide +kernel
  rcases Option.map_eq_some_iff.1 hrun with ⟨c, hrun, hc⟩
  have hreach := reaches_iff.2 ⟨_, hrun⟩
  rcases Prod.mk.inj hc with ⟨hlive, hcall⟩
  have hp : 144 ∈ c.pointers := by
    rw [pointers, hlive]
    decide
  rcases hreach.reused hp with ⟨d, s, t, hstep, -, ht, ⟨b, hb, hfree, hcovers⟩, hserves⟩
  rw [hstep] at hcall
  have hblocks : d.heap.survey?.map (fun t => t.chain.located) = _ := Option.some.inj hcall
  rw [Heap.survey?_eq ht] at hblocks
  have hblocks : t.chain.located = _ := Option.some.inj hblocks
  -- the free block that covers the address has 48 bytes
  have hmem : (b.addr, ⟨b.tag.size, b.tag.allocated⟩) ∈ t.chain.located :=
    List.mem_map.2 ⟨b, hb, rfl⟩
  have hfree' : b.tag.allocated = false := by simpa [ChainBlock.isFree] using hfree
  rw [hblocks, hfree'] at hmem
  have hb' : b.addr = 128 ∧ b.tag.size = 48 := by simpa using hmem
  rcases hb' with ⟨haddr, hsize⟩
  rcases (hserves b hb hfree hcovers).2 28 32 (by decide) (by decide) (by rw [hsize]; decide)
    (by rw [hsize]; decide) with ⟨e, hgrant, hsame⟩
  rw [haddr] at hgrant
  exact ⟨c, d, t, b, hreach, hlive, hstep, ht, hb, haddr, hsize, e, hgrant, hsame⟩

end Client

end BoundaryTag
