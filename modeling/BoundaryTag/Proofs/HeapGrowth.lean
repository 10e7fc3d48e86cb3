import BoundaryTag.Heap.Layout
import BoundaryTag.Proofs.BlockMerging

/-!
# HeapGrowth — new heaps and new bytes

How a heap comes about and how it gets more bytes.

* `Region.setFrame_settled`: the frame is that of a heap without blocks.
* `Settled.raise`: new bytes at the top become a free block.
* `Heap.Follows` says that a heap has come to follow a plan, and is neat if it was before.
* `Heap.extend_follows`: a heap grows by a free block at its top, or it stays as it was, as the plan
  says.
* `Heap.layOut_spec`: laying out a heap comes through, and a heap that results is settled.
-/

namespace BoundaryTag

open Extent

namespace Region

variable {r s : Region} {lo x n : Nat} {es : List Extent} {lists : Nat → List Nat}

/-! ## The frame -/

def setFrame (r : Region) (lo : Nat) : Region :=
  (((((r.setWord lo 0).setAllocated (lo + 8) 120 false).fill (lo + 8) 0 112).setWord (lo + 120)
    (Tag.make 120 true false).word).setWord (lo + 124) (Tag.make 0 true false).word)

@[simp] theorem size_setFrame : (r.setFrame lo).size = r.size := by
  simp only [setFrame, size_setWord, size_fill, size_setAllocated]

theorem writeFrame_eq (hsize : r.size = lo + frameSize) :
    r.writeFrame lo = .ok (r.setFrame lo) := by
  have hr := r.size_lt
  simp only [frameSize] at hsize
  have hpack : ∀ n, n % 8 = 0 → n < 0x100000000 →
      Tag.pack n true false = .ok (Tag.make n true false) := fun n => Tag.pack_eq true false
  have hclear : ∀ s : Region, s.size = lo + 128 →
      FreeLists.clear ⟨lo + 8, lo⟩ s = .ok (s.fill (lo + 8) 0 112) := by
    intro s hs
    have hfit : lo + 8 + SizeClass.count * sentinelSize ≤ s.size := by
      simp only [SizeClass.count, sentinelSize]
      omega
    rw [FreeLists.clear, Fault.require_eq _ hfit, Fault.ok_bind]
    rfl
  rw [writeFrame, Address.add_eq (by omega), Fault.ok_bind, write_eq _ (by omega), Fault.ok_bind]
  simp only [prologueSize]
  rw [writeAllocated_eq (by omega) (by decide) (by decide) (by rw [size_setWord]; omega),
    Fault.ok_bind, hclear _ (by rw [size_setAllocated, size_setWord]; omega), Fault.ok_bind,
    Address.add_eq (by omega), Fault.ok_bind, Address.sub_eq (by omega), Fault.ok_bind,
    hpack 120 (by decide) (by decide), Fault.ok_bind,
    write_eq _ (by rw [size_fill, size_setAllocated, size_setWord]; omega), Fault.ok_bind,
    headerAddr_eq (by omega), Fault.ok_bind, hpack 0 (by decide) (by decide), Fault.ok_bind,
    write_eq _ (by rw [size_setWord, size_fill, size_setAllocated, size_setWord]; omega), setFrame]
  congr 3

theorem byte_setFrame_sentinel {i : Nat} (hsize : r.size = lo + frameSize) (hi : lo + 8 ≤ i)
    (hi' : i < lo + 120) : (r.setFrame lo).byte i = 0 := by
  simp only [frameSize] at hsize
  rw [setFrame, byte_setWord_of_ne (by omega), byte_setWord_of_ne (by omega), byte_fill,
    if_pos ⟨hi, by omega, by rw [size_setAllocated, size_setWord]; omega⟩]

theorem tagAt_setFrame (hsize : r.size = lo + frameSize) :
    (r.setFrame lo).tagAt (lo + 8) = Tag.make 120 true false
      ∧ (r.setFrame lo).word (lo + 120) = (Tag.make 120 true false).word
      ∧ (r.setFrame lo).tagAt (lo + 128) = Tag.make 0 true false := by
  simp only [frameSize] at hsize
  refine ⟨?_, ?_, ?_⟩
  · have hfill : ∀ s : Region, (s.fill (lo + 8) 0 112).tagAt (lo + 8) = s.tagAt (lo + 8) :=
      fun s => tagAt_congr (by omega) fun i hi hi' => by rw [byte_fill, if_neg (by omega)]
    rw [setFrame, tagAt_setWord_of_disjoint (by omega) (by omega),
      tagAt_setWord_of_disjoint (by omega) (by omega), hfill,
      tagAt_setAllocated (by omega) (by rw [size_setWord]; omega)]
  · rw [setFrame, word_setWord_of_disjoint (by omega),
      word_setWord _ (by simp only [size_fill, size_setAllocated, size_setWord]; omega)]
  · have hlast : lo + 124 = lo + 128 - 4 := by omega
    rw [setFrame, hlast, tagAt_setWord (by omega)
      (by simp only [size_setWord, size_fill, size_setAllocated]; omega)]

/-- The frame is that of a heap without blocks. -/
theorem setFrame_settled (hsize : r.size = lo + frameSize) (hlo : lo % 8 = 0) :
    (r.setFrame lo).Settled lo [] (fun _ => []) := by
  rcases tagAt_setFrame hsize with ⟨htag, hfoot, hend⟩
  have hchain : (r.setFrame lo).Chained (lo + frameSize) false [] :=
    ⟨trivial, .of_tagAt hend (size_setFrame.trans hsize).symm⟩
  have hl : Listed (lo + frameSize) [] (fun _ => []) 0 0 := by
    intro k x
    constructor
    · exact nofun
    · rintro ⟨-, n, hn, -⟩
      cases hn
  have hspan : (r.setFrame lo).size - lo < 0x100000000 := by
    rw [size_setFrame, hsize]
    simp only [frameSize]
    omega
  have hstrung : ∀ k < SizeClass.count, (FreeLists.at lo).Strung (r.setFrame lo)
      ((FreeLists.at lo).sentinelAt k) [] := by
    intro k hk
    -- cleared sentinels lead nowhere
    have hword : (r.setFrame lo).word ((FreeLists.at lo).sentinelAt k + 4) = 0 := by
      simp only [FreeLists.sentinelAt, FreeLists.at, SizeClass.count, sentinelSize] at hk ⊢
      exact word_eq_zero fun i hi hi' => byte_setFrame_sentinel hsize (by omega) (by omega)
    rw [FreeLists.strung_nil, Links.linkAt, if_pos hword]
  refine ⟨⟨?_, ?_, hchain, represents_of_listed hchain hspan hl hstrung fun _ => List.nodup_nil,
    hlo, hspan⟩, trivial, hl⟩
  · rw [htag, Tag.size_make _ _ (by decide) (by decide),
      Tag.allocated_make _ _ (by decide) (by decide)]
    exact ⟨rfl, rfl⟩
  · rw [htag]
    exact hfoot

/-- The frame is plain. -/
theorem setFrame_neat (hsize : r.size = lo + frameSize) (hlo : lo % 8 = 0) :
    (r.setFrame lo).Neat lo := by
  rcases tagAt_setFrame hsize with ⟨htag, -, hend⟩
  refine (setFrame_settled hsize hlo).drawn.chained.neat_iff.2 ⟨htag, fun x hx => ?_⟩
  rw [mem_heads_nil.1 hx]
  show ((r.setFrame lo).tagAt (lo + 128)).Plain
  rw [hend]
  exact Tag.plain_make _ _ (by decide) (by decide)

/-! ## The top -/

/-- The old epilogue becomes the header of a free block, and a new epilogue follows. -/
theorem raiseEpilogue_eq {p : Bool} (hx : 8 ≤ x) (hsize : s.size = x + n)
    (hp : (s.tagAt x).prevFree = p) (hn : minBlock ≤ n) (h8 : n % 8 = 0) (hlt : n < 0x100000000) :
    ∃ t, s.raiseEpilogue x n = .ok t ∧ t.size = s.size ∧ t.TagsAt x p ⟨n, false⟩
      ∧ t.tagAt (x + n) = Tag.make 0 true true
      ∧ (∀ lo, lo + frameSize ≤ x → x % 8 = 0 → s.KeepsPlain t lo)
      ∧ ∀ i, i + 4 < x → t.byte i = s.byte i := by
  have hs := s.size_lt
  have hn' : 16 ≤ n := hn
  have hsize₁ : (s.setFree x n p).size = s.size := size_setFree p
  have hfree : (s.setFree x n p).TagsAt x p ⟨n, false⟩ :=
    tagsAt_setFree (by omega) hn h8 hlt (by omega)
  have hwrite : s.writeFree x n p = .ok (s.setFree x n p) :=
    writeFree_eq (by omega) h8 (by omega) hlt (by omega)
  have hpack : Tag.pack 0 true true = .ok (Tag.make 0 true true) :=
    Tag.pack_eq true true (by decide) (by decide)
  refine ⟨(s.setFree x n p).setWord (x + n - 4) (Tag.make 0 true true).word, ?_, ?_, ?_, ?_,
    fun lo hlo hx8 => ?_, fun i hi => ?_⟩
  · rw [raiseEpilogue, header_eq (by omega) (by omega), Fault.ok_bind, hp, hwrite, Fault.ok_bind,
      Address.add_eq (by omega), Fault.ok_bind, headerAddr_eq (by omega), Fault.ok_bind, hpack,
      Fault.ok_bind, write_eq _ (by omega)]
  · rw [size_setWord, hsize₁]
  · refine hfree.congr (by omega) (fun i _ hi => byte_setWord_of_ne (by omega)) fun _ i _ hi => ?_
    simp only at hi
    exact byte_setWord_of_ne (by omega)
  · exact tagAt_setWord (by omega) (by omega)
  · exact (keepsPlain_setFree hlo hx8 hn h8 hlt (by omega)).trans
      (keepsPlain_setAllocated (by omega) (by omega) (by decide) (by decide) (by omega))
  · rw [byte_setWord_of_ne (by omega), byte_setFree (by omega) (by omega)]

/-- New bytes at the top become a free block that is in no list. -/
theorem Settled.raise (h : r.Settled lo es lists) (hsize : s.size = r.size + n)
    (hbyte : ∀ i, s.byte i = r.byte i) (hn : minBlock ≤ n) (h8 : n % 8 = 0)
    (hlt : n < 0x100000000) (hspan : r.size + n - lo < 0x100000000) :
    ∃ t, s.raiseEpilogue r.size n = .ok t ∧ t.size = r.size + n
      ∧ t.Drawn lo (es ++ [⟨n, false⟩]) lists
      ∧ Listed (lo + frameSize) (es ++ [⟨n, false⟩]) lists r.size (r.size + n) ∧ r.KeepsPlain t lo
      ∧ ∀ i, i + 4 < r.size → t.byte i = r.byte i := by
  have hle : lo + 128 ≤ r.size := h.drawn.le_size
  have hstop := h.drawn.stop_eq
  have hend := h.drawn.chained.ended
  rw [hstop] at hend
  -- the old epilogue becomes the header of the new block and tells whether the last one is free
  have htop : s.tagAt r.size = r.tagAt r.size := tagAt_congr (by omega) fun i _ _ => hbyte i
  have hp : (s.tagAt r.size).prevFree = lastFree false es := htop ▸ hend.prevFree
  have hn' : 16 ≤ n := hn
  rcases raiseEpilogue_eq (by omega) hsize hp hn h8 hlt with
    ⟨t, ht, hsizet, hfree, hendt, hplain, hbytet⟩
  have hkeep : ∀ i, i + 4 < r.size → t.byte i = r.byte i := fun i hi =>
    calc t.byte i = s.byte i := hbytet i hi
      _ = r.byte i := hbyte i
  rcases frame_congr h.drawn.prologue h.drawn.footer fun i hi _ =>
    hkeep i (Nat.lt_of_lt_of_le hi hle) with ⟨hprologue, hfooter⟩
  have hx8 : r.size % 8 = 0 := (h.drawn.heads (mem_heads.2 (.inr hstop.symm))).1
  have hsame : r.KeepsPlain s lo :=
    .of_byte (fun i _ _ => hbyte i) fun _ _ _ => .inr fun i _ _ => hbyte i
  refine ⟨t, ht, by omega, ⟨hprologue, hfooter, ?_, ?_, h.drawn.aligned, by omega⟩,
    h.listed.concat h.large hstop (by omega), hsame.trans (hplain lo hle hx8), hkeep⟩
  · have hes : t.Tagged (lo + frameSize) false es := by
      refine h.drawn.chained.tagged.congr (by simp only [frameSize]; omega) fun i hi => hkeep i ?_
      rw [← hstop]
      exact (hi.bounds h.large).2
    refine Chained.append.2 ⟨hes, ?_⟩
    rw [hstop]
    exact ⟨⟨hfree, trivial⟩, .of_tagAt hendt (hsize.symm.trans hsizet.symm)⟩
  · refine h.drawn.lists.congr (by omega) fun k hk y hy i hi hi' => hkeep i ?_
    have htouch : (FreeLists.at lo).Touches lists i := ⟨k, hk, y, hy, hi, hi'⟩
    rcases FreeLists.touches_cases h.listed.freeOnly htouch with hc | hc
    · simp only [prologueSize] at hc
      omega
    · have := (hc.bounds h.large).2
      rw [hstop] at this
      omega

/-- New bytes at the top become a free block and join the gap there, as the plan says. -/
theorem Settled.grow (h : r.Settled lo es lists) (hsize : s.size = r.size + n)
    (hbyte : ∀ i, s.byte i = r.byte i) (hn : minBlock ≤ n) (h8 : n % 8 = 0)
    (hlt : n < 0x100000000) (hspan : r.size + n - lo < 0x100000000) :
    ∃ t u pre m events lists', s.raiseEpilogue r.size n = .ok t
      ∧ (FreeLists.at lo).merge t r.size = .ok (u, stop (lo + frameSize) pre, events)
      ∧ (⟨lo, es, lists⟩ : Plan).grow n = (⟨lo, pre ++ [⟨m, false⟩], lists'⟩,
          stop (lo + frameSize) pre, .grow r.size n :: events)
      ∧ u.Settled lo (pre ++ [⟨m, false⟩]) lists' ∧ (r.Neat lo → u.Neat lo) ∧ n ≤ m
      ∧ inUse (lo + frameSize) (pre ++ [⟨m, false⟩]) = inUse (lo + frameSize) es
      ∧ ∀ i, Foreign lo (pre ++ [⟨m, false⟩]) i → u.byte i = r.byte i := by
  rcases h.raise hsize hbyte hn h8 hlt hspan with
    ⟨t, ht, hsizet, hdrawn, hlisted, hplaint, hbytet⟩
  rcases h.tidy.exists_back h.large with ⟨pre, b, rfl, hpre⟩
  have htop : r.size = stop (lo + frameSize) pre + b := by
    rw [← h.drawn.stop_eq, stop_append, stop_gap]
  -- nothing comes after the new block, and a gap may come before it
  have hle := h.drawn.le_size
  have hx8 : r.size % 8 = 0 := (h.drawn.heads (mem_heads.2 (.inr h.drawn.stop_eq.symm))).1
  have hn16 : 16 ≤ n := hn
  have hnil : pre ++ gap b ++ [⟨n, false⟩] = pre ++ gap b ++ ⟨n, false⟩ :: (gap 0 ++ []) := by
    simp
  rw [hnil] at hdrawn hlisted
  rw [htop] at hlisted
  have htidy := (Tidy.append.1 h.tidy).1
  rcases hdrawn.merge hlisted rfl rfl htidy hpre trivial with
    ⟨u, hu, hsizeu, hsettled, hplainu, hbyteu⟩
  rw [← htop] at hu
  refine ⟨t, u, pre, b + n + 0, _, _, ht, hu, ?_, hsettled,
    h.neat hsettled (hplaint.trans hplainu) fun y hy => ?_, by omega, ?_, fun i hi => ?_⟩
  · have hn' : 16 ≤ n := hn
    rw [Plan.grow_between lists rfl (by omega) htidy hpre, ← htop]
    simp only [true_and, Nat.add_zero]
  · -- only the epilogue is at a new place, where no bytes were before
    rw [mem_heads_append, mem_heads_cons, mem_heads_nil] at hy
    rw [mem_heads_append, mem_heads_gap]
    rcases hy with hy | rfl | rfl
    · exact .inl (.inl hy)
    · exact .inl (.inr (.inl rfl))
    · have hend : stop (lo + frameSize) pre + (b + n + 0) = r.size + n := by omega
      rw [hend]
      exact .inr ((hplaint.trans hplainu).plain _ (by omega)
        (by simp only [frameSize] at hle ⊢; omega)
        (plain_of_size_le (by omega)))
  · rw [inUse_append, inUse_append, inUse_gap]
    rfl
  · rw [hbyteu i (kept_of_foreign hsettled.large hi)]
    rcases hi.beside rfl with hi | hi
    · exact hbytet i (by omega)
    · rcases hi with ⟨y, k, hy, -⟩
      cases hy

end Region

/-! ## Sizes -/

theorem growthFor_eq_some {bytes n : Nat} (h : growthFor bytes = some n) :
    minBlock ≤ n ∧ n % 8 = 0 ∧ n ≤ maxBlock ∧ bytes ≤ n := by
  rw [growthFor, Option.map_eq_some_iff] at h
  rcases h with ⟨a, ha, rfl⟩
  rw [Option.filter_eq_some_iff] at ha
  rcases ha with ⟨ha, hmax⟩
  have hle := of_decide_eq_true hmax
  rcases alignUp_eq_some.1 ha with ⟨-, h8, hn, -⟩
  simp only [minBlock, maxBlock] at *
  omega

theorem growthFor_of_le {bytes : Nat} (hmin : minBlock ≤ bytes) :
    growthFor bytes = (alignUp bytes).filter (· ≤ maxBlock) := by
  rw [growthFor]
  cases hn : (alignUp bytes).filter (· ≤ maxBlock) with
  | none => rfl
  | some n =>
      have hle := (alignUp_eq_some.1 (Option.filter_eq_some_iff.1 hn).1).2.2.1
      exact congrArg some (Nat.max_eq_right (Nat.le_trans hmin hle))

/-- New bytes come after the old ones and are not seen. -/
theorem Source.grow_eq_some {s t : Source} {n bp : Nat} (h : s.grow n = some (t, bp)) :
    s.Admits (s.region.size + n) ∧ bp = s.region.size ∧ t.region.size = s.region.size + n
      ∧ t.kind = s.kind ∧ t.limit = s.limit ∧ ∀ i, t.region.byte i = s.region.byte i := by
  unfold grow at h
  split at h
  case isFalse => cases h
  case isTrue hadm =>
    cases h
    exact ⟨hadm, rfl, Region.size_extend _ _ hadm.lt_bound, rfl, rfl,
      Region.byte_extend _ _ hadm.lt_bound⟩

/-- The bytes of a source have no part in how far it may grow. -/
theorem Source.admits_iff {s t : Source} (hkind : t.kind = s.kind) (hlimit : t.limit = s.limit)
    (size : Nat) : t.Admits size ↔ s.Admits size := by
  rw [Admits, Admits, hkind, hlimit]

theorem Source.admits_congr {s t : Source} (hkind : t.kind = s.kind) (hlimit : t.limit = s.limit) :
    (fun size => decide (t.Admits size)) = fun size => decide (s.Admits size) :=
  funext fun size => decide_eq_decide.2 (admits_iff hkind hlimit size)

theorem Source.grow_eq_none {s : Source} {n : Nat} (h : s.grow n = none) :
    ¬s.Admits (s.region.size + n) := by
  unfold grow at h
  split at h
  case isTrue => cases h
  case isFalse hadm => exact hadm

namespace Heap

variable {h : Heap} {s : Region}

/-! ## Changing the bytes -/

def withRegion (h : Heap) (s : Region) : Heap := { h with source := { h.source with region := s } }

@[simp] theorem region_withRegion : (h.withRegion s).region = s := rfl

@[simp] theorem lo_withRegion : (h.withRegion s).lo = h.lo := rfl

@[simp] theorem region_note (e : Entry) : (h.note e).region = h.region := rfl

@[simp] theorem lo_note (e : Entry) : (h.note e).lo = h.lo := rfl

@[simp] theorem region_noteEvents (es : List Event) : (h.noteEvents es).region = h.region := rfl

@[simp] theorem lo_noteEvents (es : List Event) : (h.noteEvents es).lo = h.lo := rfl

theorem edit_eq {α : Type} {f : Region → Except Fault (Region × α)} {a : α}
    (hf : f h.region = .ok (s, a)) : h.edit f = .ok (h.withRegion s, a) := by
  rcases h with ⟨⟨kind, region, limit, granted⟩, config, lo, journal, aligned⟩
  have hf' : f region = .ok (s, a) := hf
  rw [edit, Source.storage_edit, Source.edit, hf', Fault.ok_bind]
  rfl

theorem edit_eq_ok {α : Type} {f : Region → Except Fault (Region × α)} {h' : Heap} {a : α}
    (hrun : h.edit f = .ok (h', a)) : ∃ s, f h.region = .ok (s, a) ∧ h' = h.withRegion s := by
  rcases h with ⟨⟨kind, region, limit, granted⟩, config, lo, journal, aligned⟩
  rcases Fault.bind_eq_ok.1 hrun with ⟨⟨source, b⟩, hsource, hrun⟩
  rcases Fault.bind_eq_ok.1 hsource with ⟨⟨s, c⟩, hf, hsource⟩
  cases hsource
  cases hrun
  exact ⟨s, hf, rfl⟩

theorem perform_eq {f : Region → Except Fault (Region × List Event)} {es : List Event}
    (hf : f h.region = .ok (s, es)) : h.perform f = .ok ((h.withRegion s).noteEvents es) := by
  rw [perform, edit_eq hf, Fault.ok_bind]
  rfl

/-! ## Following a plan -/

def admits (h : Heap) (size : Nat) : Bool := decide (h.source.Admits size)

def planOf (h : Heap) (es : List Extent) (lists : Nat → List Nat) : Plan := ⟨h.lo, es, lists⟩

/-- A heap has come to follow the plan `q`, and has noted the events on the way. Where it lies and
how it may grow is as it was, and a neat heap is neat again. -/
structure Follows (h h' : Heap) (q : Plan) (events : List Event) : Prop where
  lo : h'.lo = h.lo
  start : q.lo = h.lo
  config : h'.config = h.config
  admits : h'.admits = h.admits
  events : h'.events = h.events ++ events
  settled : h'.region.Settled h.lo q.extents q.lists
  neat : h.region.Neat h.lo → h'.region.Neat h.lo

variable {h' h₁ h₂ : Heap} {q q' : Plan} {events more : List Event} {es : List Extent}
  {lists : Nat → List Nat}

theorem source_admits_withRegion (n : Nat) :
    (h.withRegion s).source.Admits n ↔ h.source.Admits n :=
  Source.admits_iff rfl rfl n

@[simp] theorem admits_withRegion : (h.withRegion s).admits = h.admits :=
  Source.admits_congr rfl rfl

@[simp] theorem events_note (e : Entry) : (h.note e).events = h.events ++ e.event?.toList := by
  rw [events, note, List.filterMap_append]
  cases he : e.event? <;> simp [he, Heap.events]

@[simp] theorem events_noteEvents (es : List Event) :
    (h.noteEvents es).events = h.events ++ es := by
  rw [events, noteEvents, List.filterMap_append, List.filterMap_map]
  exact congrArg (h.events ++ ·) (List.filterMap_some)

theorem Follows.refl (hs : h.region.Settled h.lo es lists) : h.Follows h (h.planOf es lists) [] :=
  ⟨rfl, rfl, rfl, rfl, (List.append_nil _).symm, hs, id⟩

theorem Follows.trans (h₁₂ : h.Follows h₁ q events) (h₂₃ : h₁.Follows h₂ q' more) :
    h.Follows h₂ q' (events ++ more) := by
  refine ⟨h₂₃.lo.trans h₁₂.lo, h₂₃.start.trans h₁₂.lo, h₂₃.config.trans h₁₂.config,
    h₂₃.admits.trans h₁₂.admits, ?_, h₁₂.lo ▸ h₂₃.settled, fun h => ?_⟩
  · rw [h₂₃.events, h₁₂.events, List.append_assoc]
  · exact h₁₂.lo ▸ h₂₃.neat (h₁₂.lo.symm ▸ h₁₂.neat h)

theorem Follows.planOf_eq (hf : h.Follows h₁ q events) : h₁.planOf q.extents q.lists = q := by
  rw [planOf, hf.lo, ← hf.start]

/-- The bytes may change as long as the blocks and the lists are the same. -/
theorem Follows.withRegion (hf : h.Follows h₁ q events) (hs : s.Settled h.lo q.extents q.lists)
    (hneat : h₁.region.Neat h.lo → s.Neat h.lo) : h.Follows (h₁.withRegion s) q events :=
  ⟨hf.lo, hf.start, hf.config, admits_withRegion.trans hf.admits, hf.events, hs,
    fun h => hneat (hf.neat h)⟩

theorem Follows.note {e : Entry} (hf : h.Follows h₁ q events) (he : e.event? = none) :
    h.Follows (h₁.note e) q events := by
  refine ⟨hf.lo, hf.start, hf.config, hf.admits, ?_, hf.settled, hf.neat⟩
  rw [events_note, he, hf.events]
  exact List.append_nil _

/-- The bytes change, and the events say how. -/
theorem follows_noteEvents (hs : s.Settled h.lo es lists) (hneat : h.region.Neat h.lo → s.Neat h.lo)
    (events : List Event) :
    h.Follows ((h.withRegion s).noteEvents events) (h.planOf es lists) events :=
  ⟨rfl, rfl, rfl, admits_withRegion, events_noteEvents events, hs, hneat⟩

/-! ## Growth -/

@[simp] theorem lo_planOf : (h.planOf es lists).lo = h.lo := rfl

/-- Links reach the new top. -/
theorem covers_top {n : Nat} (hs : h.region.Settled h.lo es lists)
    (hspan : h.region.size + n - h.lo < 0x100000000) :
    h.lists.links.covers (h.region.size + n) = .ok () := by
  have hle := hs.drawn.le_size
  have hlo : h.lo ≤ h.region.size + n := by omega
  exact if_pos ⟨hlo, hspan⟩

theorem top_planOf (hs : h.region.Settled h.lo es lists) :
    (h.planOf es lists).top = h.region.size := hs.drawn.stop_eq

/-- New bytes come as a free block at the top. The steps of the call are the new bytes, the epilogue
and the merge. -/
theorem extend_grown {bytes n bp : Nat} {source : Source} (hs : h.region.Settled h.lo es lists)
    (hn : growthFor bytes = some n) (hlast : ¬Address.last < h.region.size + n)
    (hspan : h.region.size + n - h.lo < 0x100000000) (hgrow : h.source.grow n = some (source, bp)) :
    ∃ h' pre m lists' events, h.extend bytes = .ok (h', .ok (stop (h.lo + frameSize) pre))
      ∧ (h.planOf es lists).grow n
        = (h.planOf (pre ++ [⟨m, false⟩]) lists', stop (h.lo + frameSize) pre, events)
      ∧ h.Follows h' (h.planOf (pre ++ [⟨m, false⟩]) lists') events
      ∧ bytes ≤ m
      ∧ inUse (h.lo + frameSize) (pre ++ [⟨m, false⟩]) = inUse (h.lo + frameSize) es
      ∧ ∀ i, Foreign h.lo (pre ++ [⟨m, false⟩]) i → h'.region.byte i = h.region.byte i := by
  rcases growthFor_eq_some hn with ⟨hmin, h8, hmax, hbytes⟩
  rcases Source.grow_eq_some hgrow with ⟨-, hbp, hsize, hkind, hlimit, hbyte⟩
  obtain rfl : bp = h.region.size := hbp
  rcases hs.grow hsize hbyte hmin h8 (Nat.lt_of_le_of_lt hmax (by decide)) hspan with
    ⟨t, u, pre, m, events, lists', ht, hu, hplan, hsettled, hneat, hm, huse, hframe⟩
  -- the heap in the longer source, and with the new block and its event
  let h₁ : Heap := { h with source := source }
  let h₂ : Heap := (h₁.withRegion t).note (.event (.grow h.region.size n))
  have hraise : h₁.edit (fun r => do return (← r.raiseEpilogue h.region.size n, ()))
      = .ok (h₁.withRegion t, ()) := edit_eq (by
    show ((source.region.raiseEpilogue h.region.size n) >>= _) = _
    rw [ht, Fault.ok_bind]
    rfl)
  have hmerge : h₂.edit (fun r => (h₁.withRegion t).lists.merge r h.region.size)
      = .ok (h₂.withRegion u, stop (h.lo + frameSize) pre, events) := edit_eq hu
  have hevents : ((h₂.withRegion u).noteEvents events).events
      = h.events ++ .grow h.region.size n :: events := by
    have hnote : (h₂.withRegion u).events = h.events ++ [.grow h.region.size n] := events_note _
    rw [events_noteEvents, hnote, List.append_assoc]
    rfl
  have hadmits : ((h₂.withRegion u).noteEvents events).admits = h.admits :=
    Source.admits_congr hkind hlimit
  refine ⟨(h₂.withRegion u).noteEvents events, pre, m, lists', _, ?_, hplan,
    ⟨rfl, rfl, rfl, hadmits, hevents, hsettled, hneat⟩, by omega, huse, hframe⟩
  rw [extend, hn]
  simp only
  rw [if_neg hlast, covers_top hs hspan, Source.storage_grow, hgrow]
  show (Fault.require (h.region.size = h.region.size) _ >>= _) = _
  rw [Fault.require_eq _ rfl, Fault.ok_bind]
  show (h₁.edit _ >>= _) = _
  rw [hraise, Fault.ok_bind]
  show (h₂.edit (fun r => (h₁.withRegion t).lists.merge r h.region.size) >>= _) = _
  rw [hmerge, Fault.ok_bind]
  rfl

/-- A heap grows by a free block at its top, or it stays as it was, as the plan says. -/
theorem extend_follows (hs : h.region.Settled h.lo es lists) (bytes : Nat) :
    (∃ e, h.extend bytes = .ok (h, .error e)
        ∧ (h.planOf es lists).growth h.admits bytes = .error e)
      ∨ ∃ h' pre m lists' n events, h.extend bytes = .ok (h', .ok (stop (h.lo + frameSize) pre))
        ∧ growthFor bytes = some n ∧ (h.planOf es lists).growth h.admits bytes = .ok n
        ∧ (h.planOf es lists).grow n
          = (h.planOf (pre ++ [⟨m, false⟩]) lists', stop (h.lo + frameSize) pre, events)
        ∧ h.Follows h' (h.planOf (pre ++ [⟨m, false⟩]) lists') events
        ∧ bytes ≤ m
        ∧ inUse (h.lo + frameSize) (pre ++ [⟨m, false⟩]) = inUse (h.lo + frameSize) es
        ∧ ∀ i, Foreign h.lo (pre ++ [⟨m, false⟩]) i → h'.region.byte i = h.region.byte i := by
  rw [Plan.growth, top_planOf hs, lo_planOf]
  cases hn : growthFor bytes with
  | none =>
      refine .inl ⟨_, ?_, rfl⟩
      rw [extend, hn]
      rfl
  | some n =>
      simp only
      -- the limits are looked at in the same order
      by_cases hlast : Address.last < h.region.size + n
      · refine .inl ⟨_, ?_, if_pos hlast⟩
        rw [extend, hn]
        exact if_pos hlast
      rw [if_neg hlast]
      by_cases hfar : 0xffffffff < h.region.size + n - h.lo
      · have hcov : h.lists.links.covers (h.region.size + n)
            = .error (.offsetOverflow (h.region.size + n)) := if_neg fun hc => by
          have : h.region.size + n - h.lo < 0x100000000 := hc.2
          omega
        refine .inl ⟨_, ?_, if_pos hfar⟩
        rw [extend, hn]
        simp only
        rw [if_neg hlast, hcov]
        rfl
      rw [if_neg hfar]
      cases hgrow : h.source.grow n with
      | none =>
          have hadm : h.admits (h.region.size + n) = false :=
            decide_eq_false (Source.grow_eq_none hgrow)
          rw [hadm]
          refine .inl ⟨.outOfMemory n, ?_, rfl⟩
          rw [extend, hn]
          simp only
          rw [if_neg hlast, covers_top hs (by omega), Source.storage_grow, hgrow]
          rfl
      | some grown =>
          rcases grown with ⟨source, bp⟩
          rcases extend_grown hs hn hlast (by omega) hgrow with
            ⟨h', pre, m, lists', events, hext, hplan, hf, hrest⟩
          have hadm : h.admits (h.region.size + n) = true :=
            decide_eq_true (Source.grow_eq_some hgrow).1
          exact .inr ⟨h', pre, m, lists', n, events, hext, rfl, if_pos hadm, hplan, hf, hrest⟩

/-! ## Laying out -/

/-- A heap at `lo` with its frame and without blocks, in a source that held `top` bytes before. The
journal has the growth for the frame. -/
def framed (grown : Source) (config : Config) (top : Nat) {lo : Nat}
    (halign : alignUp top = some lo) : Heap :=
  ((⟨grown, config, lo, [], alignUp_mod halign⟩ : Heap).withRegion
    (grown.region.setFrame lo)).note (.event (.grow top (lo - top + frameSize)))

@[simp] theorem region_framed {grown : Source} {config : Config} {top lo : Nat}
    {halign : alignUp top = some lo} :
    (framed grown config top halign).region = grown.region.setFrame lo :=
  (region_note _).trans region_withRegion

@[simp] theorem lo_framed {grown : Source} {config : Config} {top lo : Nat}
    {halign : alignUp top = some lo} : (framed grown config top halign).lo = lo :=
  (lo_note _).trans lo_withRegion

theorem source_admits_framed {grown : Source} {config : Config} {top lo : Nat}
    {halign : alignUp top = some lo} (n : Nat) :
    (framed grown config top halign).source.Admits n ↔ grown.Admits n := by
  unfold framed
  exact source_admits_withRegion n

/-- A source that does not grow by the frame gets no heap and stays as it is. In any other the frame
is written, and then the heap grows by its first block. -/
theorem layOut_steps (source : Source) (config : Config) {lo : Nat}
    (halign : alignUp source.region.size = some lo) :
    (source.grow (lo - source.region.size + frameSize) = none
        ∧ layOut source config
          = .ok (.error ⟨.outOfMemory (lo - source.region.size + frameSize), source, []⟩))
      ∨ ∃ grown, source.grow (lo - source.region.size + frameSize)
          = some (grown, source.region.size)
        ∧ layOut source config = (do
            let (h, first) ← (framed grown config source.region.size halign).extend
              config.initialChunk
            match first with
            | .error e => return .error ⟨e, h.source, h.journal⟩
            | .ok _ => return .ok (h.note (.laidOut h.lo (← h.hi)))) := by
  have hlt := source.region.size_lt
  have hlo := (alignUp_eq_some.1 halign).2
  have hlast : ¬Address.last < lo + frameSize := by
    simp only [Address.last, frameSize]
    omega
  have hcov : Links.covers ⟨lo⟩ (lo + frameSize) = .ok () := by
    refine if_pos ⟨Nat.le_add_right _ _, ?_⟩
    show lo + frameSize - lo < 0x100000000
    simp only [frameSize]
    omega
  unfold layOut
  simp only
  split
  case h_1 hnone => cases hnone.symm.trans halign
  case h_2 lo' halign' =>
    obtain rfl : lo = lo' := Option.some.inj (halign.symm.trans halign')
    rw [if_neg hlast, hcov]
    simp only [Source.storage_region, Source.storage_grow]
    cases hgrow : source.grow (lo - source.region.size + frameSize) with
    | none => exact .inl ⟨rfl, rfl⟩
    | some x =>
        -- the new bytes are those of the frame, and some below it that align it
        rcases x with ⟨grown, base⟩
        rcases Source.grow_eq_some hgrow with ⟨-, rfl, hsize, -⟩
        refine .inr ⟨grown, rfl, ?_⟩
        have hframe : Heap.edit ⟨grown, config, lo, [], alignUp_mod halign⟩
            (fun r => do return (← r.writeFrame lo, ()))
            = .ok (withRegion ⟨grown, config, lo, [], alignUp_mod halign⟩
                (grown.region.setFrame lo), ()) := edit_eq (by
          show (grown.region.writeFrame lo >>= _) = _
          rw [Region.writeFrame_eq (by omega), Fault.ok_bind]
          rfl)
        show (Fault.require (source.region.size = source.region.size) _ >>= _) = _
        rw [Fault.require_eq _ rfl, Fault.ok_bind]
        show (Heap.edit _ _ >>= _) = _
        rw [hframe, Fault.ok_bind]
        rfl

section Framed

variable {source grown : Source} {lo : Nat} (config : Config)
  (halign : alignUp source.region.size = some lo)
  (hgrow : source.grow (lo - source.region.size + frameSize) = some (grown, source.region.size))

include hgrow

theorem size_framed :
    (framed grown config source.region.size halign).region.size = lo + frameSize := by
  have hle := (alignUp_eq_some.1 halign).2.2.1
  have hsize := (Source.grow_eq_some hgrow).2.2.1
  rw [region_framed, Region.size_setFrame]
  omega

theorem framed_settled :
    (framed grown config source.region.size halign).region.Settled lo [] (fun _ => []) := by
  have hsize := size_framed config halign hgrow
  rw [region_framed, Region.size_setFrame] at hsize
  rw [region_framed]
  exact Region.setFrame_settled hsize (alignUp_mod halign)

theorem framed_neat : (framed grown config source.region.size halign).region.Neat lo := by
  have hsize := size_framed config halign hgrow
  rw [region_framed, Region.size_setFrame] at hsize
  rw [region_framed]
  exact Region.setFrame_neat hsize (alignUp_mod halign)

theorem admits_framed : (framed grown config source.region.size halign).admits
    = fun size => decide (source.Admits size) := by
  rcases Source.grow_eq_some hgrow with ⟨-, -, -, hkind, hlimit, -⟩
  exact admits_withRegion.trans (Source.admits_congr hkind hlimit)

end Framed

/-- A framed heap grows by its first block, or it is given up, as the plan without blocks says. -/
theorem layOut_decided (source : Source) (config : Config) {lo : Nat}
    (halign : alignUp source.region.size = some lo) :
    (source.grow (lo - source.region.size + frameSize) = none
        ∧ layOut source config
          = .ok (.error ⟨.outOfMemory (lo - source.region.size + frameSize), source, []⟩))
      ∨ ∃ grown f, source.grow (lo - source.region.size + frameSize)
          = some (grown, source.region.size)
        ∧ f = framed grown config source.region.size halign
        ∧ ((∃ e, (f.planOf [] fun _ => []).growth f.admits config.initialChunk = .error e
            ∧ layOut source config = .ok (.error ⟨e, f.source, f.journal⟩))
          ∨ ∃ h n, (f.planOf [] fun _ => []).growth f.admits config.initialChunk = .ok n
            ∧ growthFor config.initialChunk = some n ∧ layOut source config = .ok (.ok h)
            ∧ f.Follows h (Plan.fresh lo n) [.grow (lo + frameSize) n]
            ∧ ∀ i, i < lo → h.region.byte i = f.region.byte i) := by
  rcases layOut_steps source config halign with hnone | ⟨grown, hgrow, hrun⟩
  · exact .inl hnone
  refine .inr ⟨grown, _, hgrow, rfl, ?_⟩
  have hs := framed_settled config halign hgrow
  rcases extend_follows (h := framed grown config source.region.size halign) hs
      config.initialChunk with
    ⟨e, he, hplan⟩ | ⟨h, pre, m, lists, n, events, hext, hn, hgrowth, hplan, hf, -, -, hbytes⟩
  · refine .inl ⟨e, hplan, ?_⟩
    rw [hrun, he, Fault.ok_bind]
    rfl
  · -- a heap without blocks grows by one block
    have hpos : 0 < n := Nat.lt_of_lt_of_le (by decide) (growthFor_eq_some hn).1
    have hfresh := hplan.symm.trans (Plan.grow_fresh hpos)
    have hq : (framed grown config source.region.size halign).planOf (pre ++ [⟨m, false⟩]) lists
        = Plan.fresh lo n := congrArg Prod.fst hfresh
    have hevents : events = [.grow (lo + frameSize) n] := congrArg (fun x => x.2.2) hfresh
    rw [hq, hevents] at hf
    have hhi : h.hi = .ok (h.region.size - 1) := by
      have hle := hf.settled.drawn.le_size
      simp only [frameSize] at hle
      exact Address.sub_eq (by omega)
    refine .inr ⟨h.note (.laidOut h.lo (h.region.size - 1)), n, hgrowth, hn, ?_, hf.note rfl,
      fun i hi => hbytes i (.inl hi)⟩
    rw [hrun, hext, Fault.ok_bind]
    show (h.hi >>= _) = _
    rw [hhi, Fault.ok_bind]
    rfl

/-- Laying out a heap comes through. A heap that results follows the plan of a new heap, and has
noted the growth for its frame and for its first block. -/
theorem layOut_follows (source : Source) (config : Config) :
    ∃ lo, alignUp source.region.size = some lo
      ∧ ((∃ e, layOut source config = .ok (.error e))
        ∨ ∃ h n, layOut source config = .ok (.ok h) ∧ growthFor config.initialChunk = some n
          ∧ h.lo = lo ∧ h.config = config
          ∧ (h.admits = fun size => decide (source.Admits size))
          ∧ h.events = [.grow source.region.size (lo - source.region.size + frameSize),
              .grow (lo + frameSize) n]
          ∧ h.region.Neat lo
          ∧ h.region.Settled lo (Plan.fresh lo n).extents (Plan.fresh lo n).lists) := by
  have hlt := source.region.size_lt
  obtain ⟨lo, halign⟩ : ∃ lo, alignUp source.region.size = some lo :=
    ⟨_, if_pos (by omega)⟩
  refine ⟨lo, halign, ?_⟩
  rcases layOut_decided source config halign with
    ⟨-, he⟩ | ⟨grown, f, hgrow, rfl, ⟨e, -, he⟩ | ⟨h, n, -, hn, hrun, hf, -⟩⟩
  · exact .inl ⟨_, he⟩
  · exact .inl ⟨_, he⟩
  · refine .inr ⟨h, n, hrun, hn, hf.lo, hf.config,
      hf.admits.trans (admits_framed config halign hgrow), ?_,
      hf.neat (framed_neat config halign hgrow), hf.settled⟩
    rw [hf.events]
    rfl

/-- Laying out a heap comes through, and a heap that results is settled and has no blocks in use.
Its plan is that of a new heap. -/
theorem layOut_spec (source : Source) (config : Config) :
    (∃ e, layOut source config = .ok (.error e))
      ∨ ∃ h es lists, layOut source config = .ok (.ok h) ∧ h.region.Settled h.lo es lists
        ∧ inUse (h.lo + frameSize) es = [] ∧ h.config = config
        ∧ (h.admits = fun size => decide (source.Admits size))
        ∧ ∃ n, growthFor config.initialChunk = some n ∧ h.planOf es lists = Plan.fresh h.lo n := by
  rcases layOut_follows source config with
    ⟨lo, -, he | ⟨h, n, hrun, hn, rfl, hconfig, hadmits, -, -, hs⟩⟩
  · exact .inl he
  · exact .inr ⟨h, _, _, hrun, hs, rfl, hconfig, hadmits, n, hn, rfl⟩

end Heap

end BoundaryTag
