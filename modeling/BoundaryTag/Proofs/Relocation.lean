import BoundaryTag.Proofs.Progress
import BoundaryTag.Proofs.Refinement
import BoundaryTag.Proofs.ShiftedRegions

/-!
# Relocation — the same heap further up

A heap that is laid out above bytes that its source holds already does what it would do in an empty
source, a distance further up. No address of its own is stored in it, and no limit counts from zero.

* `Call.shift`, `Answer.shift` and `Refusal.shift` move the pointers in calls and answers.
* `Heap.Relocated` relates two heaps, and `Client.Relocated` two clients.
* `Client.Relocated.step`: a call does the same to both, and `Client.Relocated.perform`: so do any
  calls.
* `Client.relocated`: this is so from the start, whatever lies below the second heap.
-/

namespace BoundaryTag

open Fault Region

/-! ## Calls and answers -/

/-- The same reason `d` further up. Only the end of a heap is an address. -/
def Refusal.shift (d : Nat) : Refusal → Refusal
  | .offsetOverflow limit => .offsetOverflow (limit + d)
  | e => e

def Call.shift (d : Nat) : Call → Call
  | .free p => .free (Address.shift d p)
  | .resize p size => .resize (Address.shift d p) size
  | .write p start bytes => .write (p + d) start bytes
  | call => call

def Answer.shift (d : Nat) : Answer → Answer
  | .pointer p => .pointer (Address.shift d p)
  | .refused e => .refused (e.shift d)
  | .done => .done

def Client.shiftLive (d : Nat) (live : List (Nat × Nat)) : List (Nat × Nat) :=
  live.map fun x => (x.1 + d, x.2)

/-! ## Counting -/

namespace Region.Shifted

variable {d : Nat} {r s : Region}

theorem tally (h : Shifted d r s) (bp : Nat) (count : Stats) :
    Mirrored Eq (r.tally bp count) (s.tally (bp + d) count) := by
  fun_induction Region.tally r bp count with
  | case1 bp count f hf => exact .error
  | case2 bp count t ht h0 =>
      rcases h.header bp t ht with ⟨_, ht', rfl⟩
      rcases header_eq_ok ht' with ⟨h4, hbp, rfl⟩
      rw [tally_step h4 hbp, if_pos h0]
      exact .ok rfl
  | case3 bp count t ht h0 ih =>
      rcases h.header bp t ht with ⟨_, ht', rfl⟩
      rcases header_eq_ok ht' with ⟨h4, hbp, rfl⟩
      have hlt := h.lt (header_eq_ok ht).2.1
      have := (s.tagAt (bp + d)).size_le
      rw [tally_step h4 hbp, if_neg h0, Address.fits_eq (by omega), Address.fits_eq (by omega),
        ok_bind, ok_bind, Nat.add_right_comm]
      exact ih

end Region.Shifted

/-! ## Heaps -/

/-- The heap `k` has the bytes of `h`, `d` further up, and may grow as far. -/
structure Heap.Relocated (d : Nat) (h k : Heap) : Prop where
  region : Shifted d h.region k.region
  lo : k.lo = h.lo + d
  config : k.config = h.config
  admits : ∀ n, k.source.Admits (n + d) ↔ h.source.Admits n
  below : h.lo + 8 + d < 0x8000000000000000

namespace Heap.Relocated

variable {d : Nat} {h k : Heap}

theorem lists (hr : Relocated d h k) : k.lists = h.lists.shift d := by
  rw [Heap.lists, prologue, hr.lo, Nat.add_right_comm]
  rfl

theorem fits (hr : Relocated d h k) :
    h.lists.root + d < 0x8000000000000000 ∧ h.lists.base + d < 0x8000000000000000 := by
  have := hr.below
  refine ⟨this, ?_⟩
  show h.lo + d < 0x8000000000000000
  omega

theorem note (hr : Relocated d h k) (e f : Entry) : Relocated d (h.note e) (k.note f) :=
  ⟨hr.region, hr.lo, hr.config, hr.admits, hr.below⟩

theorem noteEvents (hr : Relocated d h k) (es fs : List Event) :
    Relocated d (h.noteEvents es) (k.noteEvents fs) :=
  ⟨hr.region, hr.lo, hr.config, hr.admits, hr.below⟩

theorem withRegion {r s : Region} (hr : Relocated d h k) (hrs : Shifted d r s) :
    Relocated d (h.withRegion r) (k.withRegion s) :=
  ⟨hrs, hr.lo, hr.config, hr.admits, hr.below⟩

theorem edit {α β : Type} (rel : α → β → Prop) {f : Region → Except Fault (Region × α)}
    {g : Region → Except Fault (Region × β)} (hr : Relocated d h k)
    (hfg : Mirrored (fun x y => Shifted d x.1 y.1 ∧ rel x.2 y.2) (f h.region) (g k.region)) :
    Mirrored (fun x y => Relocated d x.1 y.1 ∧ rel x.2 y.2) (h.edit f) (k.edit g) := by
  rintro ⟨h', a⟩ hrun
  rcases edit_eq_ok hrun with ⟨r, hf, rfl⟩
  rcases hfg _ hf with ⟨⟨s, b⟩, hg, hrs, hab⟩
  exact ⟨_, edit_eq hg, hr.withRegion hrs, hab⟩

/-- What is done to the regions alone. -/
theorem modify {f g : Region → Except Fault Region} (hr : Relocated d h k)
    (hfg : Mirrored (Shifted d) (f h.region) (g k.region)) :
    Mirrored (fun x y => Relocated d x.1 y.1) (h.edit fun r => do return (← f r, ()))
      (k.edit fun r => do return (← g r, ())) := by
  refine (hr.edit (fun _ _ => True) (hfg.bind fun r s _ hrs => ?_)).mono fun _ _ => And.left
  exact .pure ⟨hrs, trivial⟩

theorem perform {f g : Region → Except Fault (Region × List Event)} (hr : Relocated d h k)
    (hfg : Mirrored (fun x y => Shifted d x.1 y.1) (f h.region) (g k.region)) :
    Mirrored (Relocated d) (h.perform f) (k.perform g) := by
  refine (hr.edit (fun _ _ => True) (hfg.mono fun _ _ hrs => ⟨hrs, trivial⟩)).bind ?_
  rintro ⟨h', es⟩ ⟨k', fs⟩ - ⟨hr', -⟩
  exact .pure (hr'.noteEvents es fs)

/-! ## Growth -/

/-- The sources grow together. -/
theorem grow (hr : Relocated d h k) (n : Nat) :
    (h.source.grow n = none ∧ k.source.grow n = none)
      ∨ ∃ s t, h.source.grow n = some (s, h.region.size)
        ∧ k.source.grow n = some (t, k.region.size)
        ∧ Relocated d { h with source := s } { k with source := t } := by
  have hsize : k.region.size + n = h.region.size + n + d := by
    have := hr.region.size
    omega
  have hiff : k.source.Admits (k.region.size + n) ↔ h.source.Admits (h.region.size + n) := by
    rw [hsize]
    exact hr.admits _
  by_cases hadm : h.source.Admits (h.region.size + n)
  · refine .inr ⟨_, _, dif_pos hadm, dif_pos (hiff.2 hadm), ?_, hr.lo, hr.config, hr.admits,
      hr.below⟩
    exact hr.region.extend hadm.lt_bound (hiff.2 hadm).lt_bound
  · exact .inl ⟨dif_neg hadm, dif_neg (mt hiff.1 hadm)⟩

theorem covers_shift (l : Links) (d limit : Nat) :
    (l.shift d).covers (limit + d) = (l.covers limit).mapError (Refusal.shift d) := by
  have hsub : limit + d - (l.base + d) = limit - l.base := Nat.add_sub_add_right limit d l.base
  have hiff : (l.base + d ≤ limit + d ∧ limit + d - (l.base + d) < 0x100000000)
      ↔ l.base ≤ limit ∧ limit - l.base < 0x100000000 := by
    rw [hsub, Nat.add_le_add_iff_right]
  by_cases h : l.base ≤ limit ∧ limit - l.base < 0x100000000
  · rw [Links.covers, Links.covers, if_pos h]
    exact if_pos (hiff.2 h)
  · rw [Links.covers, Links.covers, if_neg h]
    exact if_neg (mt hiff.1 h)

/-- What becomes of new bytes: a free block, which is joined with the one before it. -/
theorem raise (hr : Relocated d h k) (top : Nat) {size : Nat} (hsize : size < 0x100000000) :
    Mirrored (fun x y => Relocated d x.1 y.1
        ∧ y.2 = (x.2.map (· + d)).mapError (Refusal.shift d))
      (do
        let (h, _) ← h.edit fun r => do return (← r.raiseEpilogue top size, ())
        let l := h.lists
        let (h, block, events) ← (h.note (.event (.grow top size))).edit fun r => l.merge r top
        return (h.noteEvents events, Except.ok block))
      (do
        let (k, _) ← k.edit fun r => do return (← r.raiseEpilogue (top + d) size, ())
        let l := k.lists
        let (k, block, events) ← (k.note (.event (.grow (top + d) size))).edit fun r =>
          l.merge r (top + d)
        return (k.noteEvents events, Except.ok block)) := by
  refine (hr.modify (hr.region.raiseEpilogue top hsize)).bind ?_
  rintro ⟨h₁, _⟩ ⟨k₁, _⟩ - hr₁
  have hnote := hr₁.note (.event (.grow top size)) (.event (.grow (top + d) size))
  have hmerge : Mirrored (fun x y => Shifted d x.1 y.1 ∧ y.2.1 = x.2.1 + d)
      (h₁.lists.merge (h₁.note (.event (.grow top size))).region top)
      (k₁.lists.merge (k₁.note (.event (.grow (top + d) size))).region (top + d)) := by
    rw [hr₁.lists]
    exact hnote.region.merge hr₁.fits top
  refine (hnote.edit (fun x y => y.1 = x.1 + d) hmerge).bind ?_
  rintro ⟨h₂, block, events⟩ ⟨k₂, _, events'⟩ - ⟨hr₂, rfl⟩
  exact .pure ⟨hr₂.noteEvents events events', rfl⟩

theorem extend (hr : Relocated d h k) (bytes : Nat) :
    Mirrored (fun x y => Relocated d x.1 y.1
        ∧ y.2 = (x.2.map (· + d)).mapError (Refusal.shift d))
      (h.extend bytes) (k.extend bytes) := by
  unfold Heap.extend
  cases hn : growthFor bytes with
  | none => exact .pure ⟨hr, rfl⟩
  | some size =>
      have hmax := (growthFor_eq_some hn).2.2.1
      have hsize := hr.region.size
      have hh := h.region.size_lt
      have hk := k.region.size_lt
      simp only [maxBlock] at hmax
      have hcov : k.lists.links.covers (k.region.size + size)
          = (h.lists.links.covers (h.region.size + size)).mapError (Refusal.shift d) := by
        rw [hr.lists, hsize, Nat.add_right_comm]
        exact covers_shift _ _ _
      dsimp only
      rw [if_neg (by simp only [Address.last]; omega), if_neg (by simp only [Address.last]; omega),
        hcov, Source.storage_grow, Source.storage_grow]
      cases h.lists.links.covers (h.region.size + size) with
      | error e => exact .pure ⟨hr, rfl⟩
      | ok =>
          dsimp only [Except.mapError]
          rcases hr.grow size with ⟨hh, hk⟩ | ⟨s, t, hh, hk, hr'⟩
          · rw [hh, hk]
            exact .pure ⟨hr, rfl⟩
          · rw [hh, hk]
            dsimp only
            rw [require_eq _ rfl, require_eq _ rfl, ok_bind, ok_bind]
            rw [hsize]
            exact hr'.raise h.region.size (by omega)

/-! ## Operations -/

theorem place (hr : Relocated d h k) (bp need : Nat) :
    Mirrored (Relocated d) (h.place bp need) (k.place (bp + d) need) := by
  refine hr.perform ?_
  rw [hr.lists]
  exact hr.region.place hr.fits bp need

theorem tryAllocate (hr : Relocated d h k) (size : Nat) :
    Mirrored (fun x y => Relocated d x.1 y.1
        ∧ y.2 = (x.2.map (Address.shift d)).mapError (Refusal.shift d))
      (h.tryAllocate size) (k.tryAllocate size) := by
  refine .ite Iff.rfl (fun _ => .pure ⟨hr, rfl⟩) fun _ => ?_
  cases (blockFor size).filter (· ≤ maxBlock) with
  | none => exact .pure ⟨hr, rfl⟩
  | some need =>
      dsimp only
      rw [hr.lists, hr.config]
      refine (hr.region.firstFit hr.fits need).bind ?_
      rintro found _ - rfl
      cases found with
      | some bp =>
          exact (hr.place bp need).bind fun h' k' _ hr' => .pure ⟨hr', rfl⟩
      | none =>
          refine (hr.extend _).bind ?_
          rintro ⟨h₁, grown⟩ ⟨k₁, _⟩ - ⟨hr₁, rfl⟩
          cases grown with
          | error e => exact .pure ⟨hr₁, rfl⟩
          | ok bp => exact (hr₁.place bp need).bind fun h' k' _ hr' => .pure ⟨hr', rfl⟩

theorem allocate (hr : Relocated d h k) (size : Nat) :
    Mirrored (fun x y => Relocated d x.1 y.1 ∧ y.2 = Address.shift d x.2) (h.allocate size)
      (k.allocate size) := by
  refine (hr.tryAllocate size).bind ?_
  rintro ⟨h₁, answer⟩ ⟨k₁, _⟩ - ⟨hr₁, rfl⟩
  cases answer with
  | ok p => exact .pure ⟨hr₁, rfl⟩
  | error e => exact .pure ⟨hr₁.note _ _, rfl⟩

theorem usableSize (hr : Relocated d h k) (p : Nat) :
    Mirrored Eq (h.usableSize p) (k.usableSize (p + d)) := by
  refine (hr.region.header p).bind ?_
  rintro t _ - rfl
  exact .refl

theorem payloadSize (hr : Relocated d h k) (p : Nat) :
    Mirrored Eq (h.payloadSize p) (k.payloadSize (p + d)) := by
  refine (hr.usableSize p).bind ?_
  rintro n _ - rfl
  refine (Mirrored.require fun hin => ?_).bind fun _ _ _ _ => .pure rfl
  have := hr.region.size
  omega

theorem writePayload (hr : Relocated d h k) (p start : Nat) (bytes : ByteArray) :
    Mirrored (fun x y => Relocated d x.1 y.1) (h.writePayload p start bytes)
      (k.writePayload (p + d) start bytes) := by
  refine (hr.payloadSize p).bind ?_
  rintro n _ - rfl
  refine .ite Iff.rfl (fun _ => ?_) fun _ => .pure hr
  have hstore : Mirrored (Shifted d) (h.region.store (p + start) bytes)
      (k.region.store (p + d + start) bytes) := by
    rw [Nat.add_right_comm]
    exact hr.region.store (p + start) bytes
  refine (hr.modify hstore).bind ?_
  rintro ⟨h₁, _⟩ ⟨k₁, _⟩ - hr₁
  exact .pure hr₁

theorem allocateZeroed (hr : Relocated d h k) (count size : Nat) :
    Mirrored (fun x y => Relocated d x.1 y.1 ∧ y.2 = Address.shift d x.2)
      (h.allocateZeroed count size) (k.allocateZeroed count size) := by
  refine .ite Iff.rfl (fun _ => ?_) fun _ => .pure ⟨hr, rfl⟩
  refine (hr.allocate _).bind ?_
  rintro ⟨h₁, p⟩ ⟨k₁, _⟩ - ⟨hr₁, rfl⟩
  cases p with
  | none => exact .pure ⟨hr₁, rfl⟩
  | some p =>
      refine (hr₁.payloadSize p).bind ?_
      rintro n _ - rfl
      have hfill : Mirrored (Shifted d) (.ok (h₁.region.fill p 0 n))
          (.ok (k₁.region.fill (p + d) 0 n)) := .ok (hr₁.region.fill p 0 n)
      refine (hr₁.modify (f := fun r => .ok (r.fill p 0 n))
        (g := fun r => .ok (r.fill (p + d) 0 n)) hfill).bind ?_
      rintro ⟨h₂, _⟩ ⟨k₂, _⟩ - hr₂
      exact .pure ⟨hr₂, rfl⟩

theorem free (hr : Relocated d h k) (p : Option Nat) :
    Mirrored (Relocated d) (h.free p) (k.free (Address.shift d p)) := by
  cases p with
  | none => exact .pure hr
  | some bp =>
      refine hr.perform ?_
      rw [hr.lists]
      exact hr.region.release hr.fits bp

theorem resize (hr : Relocated d h k) (p : Option Nat) (size : Nat) :
    Mirrored (fun x y => Relocated d x.1 y.1 ∧ y.2 = Address.shift d x.2) (h.resize p size)
      (k.resize (Address.shift d p) size) := by
  refine .ite Iff.rfl (fun _ => ?_) fun _ => ?_
  · exact (hr.free p).bind fun h₁ k₁ _ hr₁ => .pure ⟨hr₁, rfl⟩
  cases p with
  | none => exact hr.allocate size
  | some old =>
      refine (hr.allocate size).bind ?_
      rintro ⟨h₁, new⟩ ⟨k₁, _⟩ - ⟨hr₁, rfl⟩
      cases new with
      | none => exact .pure ⟨hr₁, rfl⟩
      | some new =>
          refine (hr₁.usableSize old).bind ?_
          rintro n _ - rfl
          refine (hr₁.modify (hr₁.region.copy old new _)).bind ?_
          rintro ⟨h₂, _⟩ ⟨k₂, _⟩ - hr₂
          exact (hr₂.free (some old)).bind fun h₃ k₃ _ hr₃ => .pure ⟨hr₃, rfl⟩

theorem stats (hr : Relocated d h k) : Mirrored Eq h.stats k.stats := by
  have hsize : k.region.size - k.lo = h.region.size - h.lo := by
    rw [hr.region.size, hr.lo, Nat.add_sub_add_right]
  have hle : k.lo ≤ k.region.size ↔ h.lo ≤ h.region.size := by
    rw [hr.region.size, hr.lo, Nat.add_le_add_iff_right]
  have hsub : Address.sub k.region.size k.lo = Address.sub h.region.size h.lo := by
    simp only [Address.sub, hsize, hle]
  have hprologue : k.prologue = h.prologue + d := by
    rw [prologue, prologue, hr.lo, Nat.add_right_comm]
  unfold Heap.stats
  rw [hsub, hprologue]
  refine Mirrored.refl.bind ?_
  rintro n _ - rfl
  refine (hr.region.next h.prologue).bind ?_
  rintro bp _ - rfl
  exact hr.region.tally bp _

end Heap.Relocated

/-! ## Clients -/

/-- The heap of `e` is that of `c` `d` further up, and so are its live pointers. -/
structure Client.Relocated (d : Nat) (c e : Client) : Prop where
  heap : c.heap.Relocated d e.heap
  live : e.live = Client.shiftLive d c.live

namespace Client

variable {d : Nat} {c e : Client}

theorem keep_shift (live : List (Nat × Nat)) (p : Option Nat) (size : Nat) :
    keep (shiftLive d live) (Address.shift d p) size = shiftLive d (keep live p size) := by
  cases p <;> rfl

theorem forget_shift (live : List (Nat × Nat)) (p : Option Nat) :
    forget (shiftLive d live) (Address.shift d p) = shiftLive d (forget live p) := by
  rw [forget, forget, shiftLive, shiftLive, List.filter_map]
  congr 1
  refine List.filter_congr fun x _ => ?_
  cases p with
  | none => rfl
  | some a => simp [Address.shift]

theorem pointers_shift (hr : Relocated d c e) : e.pointers = c.pointers.map (· + d) := by
  rw [pointers, hr.live, shiftLive, pointers, List.map_map, List.map_map]
  rfl

namespace Relocated

/-- A call does the same to both. -/
theorem step (hr : Relocated d c e) (call : Call) :
    Mirrored (fun x y => Relocated d x.1 y.1 ∧ y.2 = x.2.shift d) (c.step call)
      (e.step (call.shift d)) := by
  cases call with
  | allocate size =>
      refine (hr.heap.allocate size).bind ?_
      rintro ⟨h, p⟩ ⟨k, _⟩ - ⟨hrel, rfl⟩
      exact .pure ⟨⟨hrel, by rw [hr.live, keep_shift]⟩, rfl⟩
  | tryAllocate size =>
      refine (hr.heap.tryAllocate size).bind ?_
      rintro ⟨h, answer⟩ ⟨k, _⟩ - ⟨hrel, rfl⟩
      cases answer with
      | ok p => exact .pure ⟨⟨hrel, by rw [hr.live, keep_shift]⟩, rfl⟩
      | error reason => exact .pure ⟨⟨hrel, hr.live⟩, rfl⟩
  | allocateZeroed count size =>
      refine (hr.heap.allocateZeroed count size).bind ?_
      rintro ⟨h, p⟩ ⟨k, _⟩ - ⟨hrel, rfl⟩
      exact .pure ⟨⟨hrel, by rw [hr.live, keep_shift]⟩, rfl⟩
  | free p =>
      refine (hr.heap.free p).bind fun h k _ hrel => ?_
      exact .pure ⟨⟨hrel, by rw [hr.live, forget_shift]⟩, rfl⟩
  | resize p size =>
      refine (hr.heap.resize p size).bind ?_
      rintro ⟨h, q⟩ ⟨k, _⟩ - ⟨hrel, rfl⟩
      refine .pure ⟨⟨hrel, ?_⟩, rfl⟩
      -- a payload has moved in both or in neither
      have hsome : (Address.shift d q).isSome = q.isSome := by cases q <;> rfl
      show keep (if size = 0 ∨ (Address.shift d q).isSome then _ else _) _ size = _
      simp only [hsome, hr.live]
      split
      · rw [forget_shift, keep_shift]
      · rw [keep_shift]
  | write p start bytes =>
      refine (hr.heap.writePayload p start bytes).bind ?_
      rintro ⟨h, _⟩ ⟨k, _⟩ - hrel
      exact .pure ⟨⟨hrel, hr.live⟩, rfl⟩

theorem owns (hr : Relocated d c e) {p : Option Nat} (hp : c.Owns p) :
    e.Owns (Address.shift d p) := by
  intro a ha
  rcases Option.map_eq_some_iff.1 ha with ⟨b, rfl, rfl⟩
  rw [pointers_shift hr]
  exact List.mem_map_of_mem (hp b rfl)

/-- A call that plays by the rules for one does so for the other. -/
theorem allows (hr : Relocated d c e) {call : Call} (ha : c.Allows call) :
    e.Allows (call.shift d) := by
  cases call with
  | free p => exact hr.owns ha
  | resize p size => exact hr.owns ha
  | write p start bytes =>
      rcases ha with ⟨hp, n, hn, hroom⟩
      rcases hr.heap.usableSize p n hn with ⟨_, hn', rfl⟩
      exact ⟨hr.owns hp, n, hn', hroom⟩
  | _ => trivial

/-- Calls that come through do the same to both. -/
theorem perform (hr : Relocated d c e) (calls : List Call) :
    Mirrored (fun x y => Relocated d x.1 y.1 ∧ y.2 = x.2.map (Answer.shift d)) (c.perform calls)
      (e.perform (calls.map (Call.shift d))) := by
  induction calls generalizing c e with
  | nil => exact .pure ⟨hr, rfl⟩
  | cons call calls ih =>
      refine (hr.step call).bind ?_
      rintro ⟨c₁, answer⟩ ⟨e₁, _⟩ - ⟨hr₁, rfl⟩
      refine (ih hr₁).bind ?_
      rintro ⟨c₂, answers⟩ ⟨e₂, _⟩ - ⟨hr₂, rfl⟩
      exact .pure ⟨hr₂, rfl⟩

/-- Calls that play by the rules for one and come through do so for the other. -/
theorem plays (hr : Relocated d c e) {calls : List Call} (hplays : c.Plays calls)
    {f : Client} {answers : List Answer} (hrun : c.perform calls = .ok (f, answers)) :
    e.Plays (calls.map (Call.shift d)) := by
  induction calls generalizing c e answers with
  | nil => trivial
  | cons call calls ih =>
      rcases hplays with ⟨hallows, hrest⟩
      rcases bind_eq_ok.1 hrun with ⟨⟨c₁, answer⟩, hstep, hrun⟩
      rcases bind_eq_ok.1 hrun with ⟨⟨c₂, more⟩, hmore, hdone⟩
      cases hdone
      rcases hr.step call _ hstep with ⟨⟨e₁, answer'⟩, hstep', hr₁, -⟩
      refine ⟨hr.allows hallows, fun e₂ answer₂ hstep₂ => ?_⟩
      cases hstep'.symm.trans hstep₂
      exact ih hr₁ (hrest _ _ hstep) hmore

end Relocated

end Client

/-! ## Layout -/

namespace Heap

variable {h k : Heap} {d : Nat}

/-- A buffer that holds bytes up to `base`, rounded up, may grow as far above it as an empty one. -/
theorem admits_relocated {limit base : Nat} (below : Region)
    (hlimit : limit + base ≤ Source.maxBuffer) (n : Nat) :
    (Source.mk .buffer below (limit + base) nofun).Admits (n + base)
      ↔ (Source.buffer limit).Admits n := by
  show (n + base ≤ limit + base ∧ n + base ≤ Source.maxBuffer)
    ↔ n ≤ limit ∧ n ≤ Source.maxBuffer
  omega

/-- Frames in sources that were grown for them are related. -/
theorem framed_relocated {limit base : Nat} {below : Region} {s t : Source} (config : Config)
    (hempty : alignUp (Source.buffer limit).region.size = some 0)
    (halign : alignUp below.size = some base) (hlimit : limit + base ≤ Source.maxBuffer)
    (hs : (Source.buffer limit).grow (0 - (Source.buffer limit).region.size + frameSize)
      = some (s, (Source.buffer limit).region.size))
    (ht : (Source.mk .buffer below (limit + base) nofun).grow (base - below.size + frameSize)
      = some (t, below.size)) :
    Relocated base (framed s config _ hempty) (framed t config below.size halign) := by
  rcases Source.grow_eq_some hs with ⟨-, -, hsize, hkind, hmax, hbyte⟩
  rcases Source.grow_eq_some ht with ⟨hadm, -, hsize', hkind', hmax', hbyte'⟩
  have hle := (alignUp_eq_some.1 halign).2.2.1
  have hbound := hadm.lt_bound
  have hzero : (Source.buffer limit).region.size = 0 := rfl
  have hregion : (Source.mk .buffer below (limit + base) nofun).region.size = below.size := rfl
  have hshift : Shifted base s.region t.region := by
    refine ⟨by omega, fun a => ?_⟩
    rw [hbyte', hbyte, byte_of_size_le (r := below) (by omega),
      byte_of_size_le (by rw [hzero]; exact Nat.zero_le a)]
  refine ⟨?_, ?_, rfl, fun n => ?_, ?_⟩
  · rw [region_framed, region_framed]
    have := hshift.setFrame 0
    rw [Nat.zero_add] at this
    exact this
  · rw [lo_framed, lo_framed, Nat.zero_add]
  · rw [source_admits_framed, source_admits_framed, Source.admits_iff hkind' hmax',
      Source.admits_iff hkind hmax]
    exact admits_relocated below hlimit n
  · rw [lo_framed]
    simp only [bound, frameSize] at hbound
    omega

/-- New heaps are related. -/
theorem layOut_relocated (limit : Nat) (config : Config) {below : Region} {base : Nat}
    (halign : alignUp below.size = some base) (hlimit : limit + base ≤ Source.maxBuffer) :
    Mirrored (fun x y => (∃ e f, x = .error e ∧ y = .error f)
        ∨ ∃ h k, x = .ok h ∧ y = .ok k ∧ Relocated base h k)
      (layOut (Source.buffer limit) config)
      (layOut (⟨.buffer, below, limit + base, nofun⟩ : Source) config) := by
  have hempty : alignUp (Source.buffer limit).region.size = some 0 :=
    alignUp_of_mod (n := 0) rfl (by decide)
  have hle := (alignUp_eq_some.1 halign).2.2.1
  have hiff := admits_relocated below hlimit frameSize
  have htop : below.size + (base - below.size + frameSize) = frameSize + base := by omega
  rcases layOut_steps (.buffer limit) config hempty with ⟨hs, he⟩ | ⟨s, hs, hrun⟩
  · rcases layOut_steps ⟨.buffer, below, limit + base, nofun⟩ config halign with
      ⟨-, hf⟩ | ⟨t, ht, -⟩
    · rw [he, hf]
      exact .ok (.inl ⟨_, _, rfl, rfl⟩)
    · -- there is room for the second frame only if there is for the first
      have hadm := (Source.grow_eq_some ht).1
      rw [htop] at hadm
      exact absurd (hiff.1 hadm) (Source.grow_eq_none hs)
  · rcases layOut_steps ⟨.buffer, below, limit + base, nofun⟩ config halign with
      ⟨ht, -⟩ | ⟨t, ht, hrun'⟩
    · have hnot := Source.grow_eq_none ht
      rw [htop] at hnot
      exact absurd (hiff.2 (Source.grow_eq_some hs).1) hnot
    · rw [hrun, hrun']
      have hr := framed_relocated config hempty halign hlimit hs ht
      refine (hr.extend config.initialChunk).bind ?_
      rintro ⟨h, first⟩ ⟨k, _⟩ - ⟨hr', rfl⟩
      cases first with
      | error e => exact .pure (.inl ⟨_, _, rfl, rfl⟩)
      | ok bp =>
          have hhi : Mirrored (Address.Ahead base) h.hi k.hi := by
            rw [hi, hi, hr'.region.size]
            exact Address.sub_ahead
          refine hhi.bind fun a b _ _ => ?_
          exact .pure (.inr ⟨_, _, rfl, rfl, hr'.note _ _⟩)

end Heap

namespace Client

/-- Lay out a heap in an empty buffer with some limit, and one with the same configuration above
bytes that a buffer holds already, whose limit is further up by their number, rounded up. Both come
about or neither does. If they do, calls by the rules, with the pointers of the second heap further
up by that distance, get the same answers, further up as well, and lead to the same counts and to
the same bytes. -/
theorem relocated (limit : Nat) (config : Config) (below : Region) {base : Nat}
    (halign : alignUp below.size = some base) (hlimit : limit + base ≤ Source.maxBuffer) :
    ∃ x y, Heap.layOut (Source.buffer limit) config = .ok x
      ∧ Heap.layOut (⟨.buffer, below, limit + base, nofun⟩ : Source) config = .ok y
      ∧ ((∃ h, x = .ok h) ↔ ∃ k, y = .ok k)
      ∧ ∀ h k, x = .ok h → y = .ok k → ∀ calls, Plays ⟨h, []⟩ calls →
          Plays ⟨k, []⟩ (calls.map (Call.shift base))
          ∧ ∃ c e answers stats, perform ⟨h, []⟩ calls = .ok (c, answers)
            ∧ perform ⟨k, []⟩ (calls.map (Call.shift base))
                = .ok (e, answers.map (Answer.shift base))
            ∧ e.live = shiftLive base c.live
            ∧ c.heap.stats = .ok stats ∧ e.heap.stats = .ok stats
            ∧ e.heap.region.size = c.heap.region.size + base
            ∧ ∀ a, e.heap.region.byte (a + base) = c.heap.region.byte a := by
  obtain ⟨lo, -, hlay⟩ := Heap.layOut_follows (.buffer limit) config
  have hmirror := Heap.layOut_relocated limit config halign hlimit
  rcases hlay with ⟨f, hf⟩ | ⟨h, n, hrun, -, hlo, hconfig, hadmits, -, -, hs⟩
  · -- if there is no heap in the one then there is none in the other
    rcases hmirror _ hf with ⟨y, hy, ⟨e, g, -, rfl⟩ | ⟨h, k, hh, -⟩⟩
    · exact ⟨_, _, hf, hy, ⟨nofun, nofun⟩, nofun⟩
    · cases hh
  · rcases hmirror _ hrun with ⟨y, hy, ⟨e, g, he, -⟩ | ⟨h', k, hh, rfl, hr⟩⟩
    · cases he
    cases hh
    refine ⟨_, _, hrun, hy, ⟨fun _ => ⟨k, rfl⟩, fun _ => ⟨h, rfl⟩⟩, ?_⟩
    rintro h' k' hh hk calls hplays
    cases hh
    cases hk
    subst hlo
    have hstart : Relocated base ⟨h, []⟩ ⟨k, []⟩ := ⟨hr, rfl⟩
    rcases perform_follows (c := ⟨h, []⟩) (p := Plan.fresh h.lo n) rfl hs (keeps_nil hs rfl) hplays
      with ⟨q, answers, events, c, -, hperform, hf⟩
    rcases hstart.perform calls _ hperform with ⟨⟨e, _⟩, hperform', hrel, rfl⟩
    have hstats := Heap.stats_eq (hf.lo.symm ▸ hf.settled)
    rcases hrel.heap.stats _ hstats with ⟨_, hstats', rfl⟩
    exact ⟨hstart.plays hplays hperform, c, e, answers, _, hperform, hperform', hrel.live, hstats,
      hstats', hrel.heap.region.size, hrel.heap.region.byte⟩

/-- Three bytes are below the second heap, so it is eight bytes further up. -/
theorem relocated_above_three :
    ∃ h k c e answers stats, Heap.layOut (Source.buffer 4096) ⟨64, 64⟩ = .ok (.ok h)
      ∧ Heap.layOut (⟨.buffer, ⟨⟨#[1, 2, 3]⟩, by decide⟩, 4096 + 8, nofun⟩ : Source) ⟨64, 64⟩
        = .ok (.ok k)
      ∧ perform ⟨h, []⟩ [.allocate 12, .write 128 0 ⟨#[7, 7]⟩, .tryAllocate 5000, .free (some 128)]
        = .ok (c, answers)
      ∧ perform ⟨k, []⟩ [.allocate 12, .write 136 0 ⟨#[7, 7]⟩, .tryAllocate 5000, .free (some 136)]
        = .ok (e, answers.map (Answer.shift 8))
      ∧ c.heap.stats = .ok stats ∧ e.heap.stats = .ok stats
      ∧ ∀ a, e.heap.region.byte (a + 8) = c.heap.region.byte a := by
  have halign : alignUp (Region.mk ⟨#[1, 2, 3]⟩ (by decide)).size = some 8 := by decide
  have hruns : (runFrom (.buffer 4096) ⟨64, 64⟩
      [.allocate 12, .write 128 0 ⟨#[7, 7]⟩, .tryAllocate 5000, .free (some 128)]).isSome := by
    decide +kernel
  rcases Option.isSome_iff_exists.1 hruns with ⟨d, hrun⟩
  rcases relocated 4096 ⟨64, 64⟩ _ halign (by decide) with ⟨x, y, hx, hy, hiff, hall⟩
  rcases runFrom_eq_some_iff.1 hrun with ⟨h, hlay, hplays, -⟩
  cases hx.symm.trans hlay
  rcases hiff.1 ⟨h, rfl⟩ with ⟨k, rfl⟩
  rcases hall h k rfl rfl _ hplays with
    ⟨-, c, e, answers, stats, hc, he, -, hstats, hstats', -, hbyte⟩
  exact ⟨h, k, c, e, answers, stats, hx, hy, hc, he, hstats, hstats', hbyte⟩

end Client

end BoundaryTag
