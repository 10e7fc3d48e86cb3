import BoundaryTag.Client.Session
import BoundaryTag.Proofs.RegionLength

/-!
# StorageExchange — the same heap in another storage

A heap knows nothing of its storage but the bytes in use and whether more can be had. In two
storages that agree on these, every call does the same, down to the fault in which it stops.

* `Fault.Agreed` relates two runs by their results, or says that they stop for one reason.
  `Fault.WithAnswer` relates results that come with an answer.
* `Storage.Simulation` is a relation between two storages that survives whatever a heap does to
  them. A heap keeps the number of bytes in use when it changes them.
* `Heap.Akin` relates two heaps in related storages, and `Client.Akin` two clients. There is one
  lemma for each operation, which end with `Heap.Akin.layOut` and `Client.Akin.step`.
* `Client.session_eq`: nothing that is seen of a heap depends on which of the storages it is in.
* `Source.Akin` relates sources that hold the same bytes and may grow as far.
-/

namespace BoundaryTag

/-! ## Two runs -/

namespace Fault

/-- Both runs come through, with related results, or both stop for the same reason. -/
inductive Agreed {α β : Type} (rel : α → β → Prop) : Except Fault α → Except Fault β → Prop where
  | ok {a : α} {b : β} (h : rel a b) : Agreed rel (.ok a) (.ok b)
  | error (f : Fault) : Agreed rel (.error f) (.error f)

/-- Related results that come with the same answer. -/
abbrev WithAnswer {α β γ : Type} (rel : α → β → Prop) (x : α × γ) (y : β × γ) : Prop :=
  rel x.1 y.1 ∧ x.2 = y.2

namespace Agreed

variable {α β γ δ : Type} {rel : α → β → Prop} {rel' : γ → δ → Prop}
  {x : Except Fault α} {y : Except Fault β}

theorem pure {a : α} {b : β} (h : rel a b) : Agreed rel (pure a) (pure b) := .ok h

theorem refl (x : Except Fault α) : Agreed Eq x x := by
  cases x with
  | error f => exact .error f
  | ok a => exact .ok rfl

theorem eq {x y : Except Fault α} (h : Agreed Eq x y) : x = y := by
  cases h with
  | error f => rfl
  | ok h => rw [h]

/-- Two runs of two steps agree if the first steps do, and the second steps do wherever the first
ones lead. -/
theorem bind {f : α → Except Fault γ} {g : β → Except Fault δ} (h : Agreed rel x y)
    (hrest : ∀ a b, rel a b → Agreed rel' (f a) (g b)) : Agreed rel' (x >>= f) (y >>= g) := by
  cases h with
  | error f => exact .error f
  | ok h => exact hrest _ _ h

/-- The first step is the same in both. -/
theorem andThen {f : α → Except Fault γ} {g : α → Except Fault δ}
    (hrest : ∀ a, Agreed rel' (f a) (g a)) : Agreed rel' (x >>= f) (x >>= g) := by
  apply (refl x).bind
  intro a b hab
  rw [← hab]
  exact hrest a

end Agreed

end Fault

open Fault

/-! ## Storages -/

/-- Storages that are related do the same for a heap, and are related afterwards. -/
structure Storage.Simulation {σ τ : Type} [Storage σ] [Storage τ] (rel : σ → τ → Prop) : Prop where
  region {s : σ} {t : τ} (h : rel s t) : Storage.region t = Storage.region s
  grow {s : σ} {t : τ} (h : rel s t) (bytes : Nat) :
    (Storage.grow s bytes = none ∧ Storage.grow t bytes = none)
      ∨ ∃ s' t' base, Storage.grow s bytes = some (s', base)
        ∧ Storage.grow t bytes = some (t', base) ∧ rel s' t'
  edit {s : σ} {t : τ} (h : rel s t) {α : Type} {f : Region → Except Fault (Region × α)}
    (hf : ∀ r x, f (Storage.region s) = .ok (r, x) → r.size = (Storage.region s).size) :
    Agreed (WithAnswer rel) (Storage.edit s f) (Storage.edit t f)

open Storage (Simulation)

variable {σ τ : Type} {rel : σ → τ → Prop}

/-! ## Heaps -/

/-- The heaps are the same but for their storages, which are related. -/
structure Heap.Akin (rel : σ → τ → Prop) (h : Heap σ) (k : Heap τ) : Prop where
  source : rel h.source k.source
  config : k.config = h.config
  lo : k.lo = h.lo
  journal : k.journal = h.journal

namespace Heap.Akin

variable {h : Heap σ} {k : Heap τ}

theorem lists (ha : h.Akin rel k) : k.lists = h.lists := by
  rw [Heap.lists, Heap.lists, prologue, prologue, ha.lo]

theorem note (ha : h.Akin rel k) (e : Entry) : (h.note e).Akin rel (k.note e) := by
  refine ⟨ha.source, ha.config, ha.lo, ?_⟩
  rw [Heap.note, Heap.note, ha.journal]

theorem noteEvents (ha : h.Akin rel k) (es : List Event) :
    (h.noteEvents es).Akin rel (k.noteEvents es) := by
  refine ⟨ha.source, ha.config, ha.lo, ?_⟩
  rw [Heap.noteEvents, Heap.noteEvents, ha.journal]

variable [Storage σ] [Storage τ]

theorem region (ha : h.Akin rel k) (sim : Simulation rel) : k.region = h.region :=
  sim.region ha.source

theorem edit {α : Type} (ha : h.Akin rel k) (sim : Simulation rel)
    {f : Region → Except Fault (Region × α)}
    (hf : ∀ r x, f h.region = .ok (r, x) → r.size = h.region.size) :
    Agreed (WithAnswer (Heap.Akin rel)) (h.edit f) (k.edit f) := by
  rcases h with ⟨source, config, lo, journal, aligned⟩
  rcases k with ⟨source', config', lo', journal', aligned'⟩
  rcases ha with ⟨hsource, hconfig, hlo, hjournal⟩
  apply (sim.edit hsource hf).bind
  rintro ⟨s, a⟩ ⟨t, b⟩ ⟨hst, rfl⟩
  exact .pure ⟨⟨hst, hconfig, hlo, hjournal⟩, rfl⟩

/-- The bytes are changed, and nothing is answered. -/
theorem modify (ha : h.Akin rel k) (sim : Simulation rel) {f : Region → Except Fault Region}
    (hf : ∀ r, f h.region = .ok r → r.size = h.region.size) :
    Agreed (WithAnswer (Heap.Akin rel)) (h.edit fun r => do return (← f r, ()))
      (k.edit fun r => do return (← f r, ())) := by
  apply ha.edit sim
  intro r x hr
  rcases Fault.bind_eq_ok.1 hr with ⟨s, hs, hr⟩
  cases hr
  exact hf _ hs

theorem perform (ha : h.Akin rel k) (sim : Simulation rel)
    {f : Region → Except Fault (Region × List Event)}
    (hf : ∀ r es, f h.region = .ok (r, es) → r.size = h.region.size) :
    Agreed (Heap.Akin rel) (h.perform f) (k.perform f) := by
  apply (ha.edit sim hf).bind
  rintro ⟨h', es⟩ ⟨k', _⟩ ⟨ha', rfl⟩
  exact .pure (ha'.noteEvents es)

/-! ## Growth -/

/-- A heap that has grown, and the new block or the reason why there is none. -/
theorem extend (ha : h.Akin rel k) (sim : Simulation rel) (bytes : Nat) :
    Agreed (WithAnswer (Heap.Akin rel)) (h.extend bytes) (k.extend bytes) := by
  unfold Heap.extend
  cases growthFor bytes with
  | none => exact .pure ⟨ha, rfl⟩
  | some size =>
      simp only
      rw [ha.region sim, ha.lists]
      split
      case isTrue => exact .pure ⟨ha, rfl⟩
      case isFalse =>
        cases h.lists.links.covers (h.region.size + size) with
        | error e => exact .pure ⟨ha, rfl⟩
        | ok =>
            simp only
            rcases sim.grow ha.source size with ⟨hh, hk⟩ | ⟨s, t, base, hh, hk, hst⟩
            · rw [hh, hk]
              exact .pure ⟨ha, rfl⟩
            · rw [hh, hk]
              apply Agreed.andThen
              intro _
              have ha₁ : Heap.Akin rel { h with source := s } { k with source := t } :=
                ⟨hst, ha.config, ha.lo, ha.journal⟩
              -- the epilogue is raised, and the new block merges with a free one before it
              apply (ha₁.modify sim fun _ => Region.size_raiseEpilogue).bind
              rintro ⟨h₂, _⟩ ⟨k₂, _⟩ ⟨ha₂, -⟩
              simp only
              rw [ha₂.lists]
              apply ((ha₂.note (.event (.grow base size))).edit sim
                fun _ _ hr => FreeLists.size_merge hr).bind
              rintro ⟨h₃, block, events⟩ ⟨k₃, _⟩ ⟨ha₃, rfl⟩
              exact .pure ⟨ha₃.noteEvents events, rfl⟩

/-! ## Operations -/

theorem place (ha : h.Akin rel k) (sim : Simulation rel) (bp need : Nat) :
    Agreed (Heap.Akin rel) (h.place bp need) (k.place bp need) := by
  unfold Heap.place
  rw [ha.lists]
  exact ha.perform sim fun _ _ hr => FreeLists.size_place hr

theorem tryAllocate (ha : h.Akin rel k) (sim : Simulation rel) (size : Nat) :
    Agreed (WithAnswer (Heap.Akin rel)) (h.tryAllocate size) (k.tryAllocate size) := by
  unfold Heap.tryAllocate
  split
  case isTrue => exact .pure ⟨ha, rfl⟩
  case isFalse =>
    cases (blockFor size).filter (· ≤ maxBlock) with
    | none => exact .pure ⟨ha, rfl⟩
    | some need =>
        simp only
        rw [ha.lists, ha.region sim, ha.config]
        apply Agreed.andThen
        intro found
        cases found with
        | some bp =>
            apply (ha.place sim bp need).bind
            intro h' k' ha'
            exact .pure ⟨ha', rfl⟩
        | none =>
            apply (ha.extend sim _).bind
            rintro ⟨h₁, grown⟩ ⟨k₁, _⟩ ⟨ha₁, rfl⟩
            cases grown with
            | error e => exact .pure ⟨ha₁, rfl⟩
            | ok bp =>
                apply (ha₁.place sim bp need).bind
                intro h' k' ha'
                exact .pure ⟨ha', rfl⟩

theorem allocate (ha : h.Akin rel k) (sim : Simulation rel) (size : Nat) :
    Agreed (WithAnswer (Heap.Akin rel)) (h.allocate size) (k.allocate size) := by
  apply (ha.tryAllocate sim size).bind
  rintro ⟨h₁, answer⟩ ⟨k₁, _⟩ ⟨ha₁, rfl⟩
  cases answer with
  | ok p => exact .pure ⟨ha₁, rfl⟩
  | error e => exact .pure ⟨ha₁.note _, rfl⟩

theorem usableSize (ha : h.Akin rel k) (sim : Simulation rel) (p : Nat) :
    k.usableSize p = h.usableSize p := by
  rw [Heap.usableSize, Heap.usableSize, ha.region sim]

theorem payloadSize (ha : h.Akin rel k) (sim : Simulation rel) (p : Nat) :
    k.payloadSize p = h.payloadSize p := by
  rw [Heap.payloadSize, Heap.payloadSize, ha.usableSize sim, ha.region sim]

theorem writePayload (ha : h.Akin rel k) (sim : Simulation rel) (p start : Nat)
    (bytes : ByteArray) :
    Agreed (WithAnswer (Heap.Akin rel)) (h.writePayload p start bytes)
      (k.writePayload p start bytes) := by
  unfold Heap.writePayload
  rw [ha.payloadSize sim]
  apply Agreed.andThen
  intro n
  split
  case isFalse => exact .pure ⟨ha, rfl⟩
  case isTrue =>
    apply (ha.modify sim fun _ => Region.size_store).bind
    rintro ⟨h₁, _⟩ ⟨k₁, _⟩ ⟨ha₁, -⟩
    exact .pure ⟨ha₁, rfl⟩

theorem allocateZeroed (ha : h.Akin rel k) (sim : Simulation rel) (count size : Nat) :
    Agreed (WithAnswer (Heap.Akin rel)) (h.allocateZeroed count size)
      (k.allocateZeroed count size) := by
  unfold Heap.allocateZeroed
  split
  case isFalse => exact .pure ⟨ha, rfl⟩
  case isTrue =>
    apply (ha.allocate sim _).bind
    rintro ⟨h₁, answer⟩ ⟨k₁, _⟩ ⟨ha₁, rfl⟩
    cases answer with
    | none => exact .pure ⟨ha₁, rfl⟩
    | some p =>
        simp only
        rw [ha₁.payloadSize sim]
        apply Agreed.andThen
        intro n
        have hfill : ∀ r x, (pure (h₁.region.fill p 0 n, ()) : Except Fault (Region × Unit))
            = .ok (r, x) → r.size = h₁.region.size := by
          intro r x hr
          cases hr
          exact Region.size_fill ..
        apply (ha₁.edit sim hfill).bind
        rintro ⟨h₂, _⟩ ⟨k₂, _⟩ ⟨ha₂, -⟩
        exact .pure ⟨ha₂, rfl⟩

theorem free (ha : h.Akin rel k) (sim : Simulation rel) (p : Option Nat) :
    Agreed (Heap.Akin rel) (h.free p) (k.free p) := by
  cases p with
  | none => exact .pure ha
  | some bp =>
      unfold Heap.free
      simp only
      rw [ha.lists]
      exact ha.perform sim fun _ _ hr => FreeLists.size_release hr

theorem resize (ha : h.Akin rel k) (sim : Simulation rel) (p : Option Nat) (size : Nat) :
    Agreed (WithAnswer (Heap.Akin rel)) (h.resize p size) (k.resize p size) := by
  unfold Heap.resize
  split
  case isTrue =>
    apply (ha.free sim p).bind
    intro h₁ k₁ ha₁
    exact .pure ⟨ha₁, rfl⟩
  case isFalse =>
    cases p with
    | none => exact ha.allocate sim size
    | some old =>
        apply (ha.allocate sim size).bind
        rintro ⟨h₁, answer⟩ ⟨k₁, _⟩ ⟨ha₁, rfl⟩
        cases answer with
        | none => exact .pure ⟨ha₁, rfl⟩
        | some new =>
            simp only
            rw [ha₁.usableSize sim]
            apply Agreed.andThen
            intro n
            -- the payload is copied before its old block is freed
            apply (ha₁.modify sim fun _ => Region.size_copy).bind
            rintro ⟨h₂, _⟩ ⟨k₂, _⟩ ⟨ha₂, -⟩
            apply (ha₂.free sim (some old)).bind
            intro h₃ k₃ ha₃
            exact .pure ⟨ha₃, rfl⟩

/-! ## Laying out -/

/-- What comes of laying out a heap in related storages: akin heaps, or none for the same reason. -/
inductive Laid (rel : σ → τ → Prop) :
    Except (LayoutFailure σ) (Heap σ) → Except (LayoutFailure τ) (Heap τ) → Prop where
  | failed {s : σ} {t : τ} (reason : Refusal) (journal : List Entry) (related : rel s t) :
      Laid rel (.error ⟨reason, s, journal⟩) (.error ⟨reason, t, journal⟩)
  | laidOut {h : Heap σ} {k : Heap τ} (akin : h.Akin rel k) : Laid rel (.ok h) (.ok k)

theorem layOut {s : σ} {t : τ} (hst : rel s t) (sim : Simulation rel) (config : Config) :
    Agreed (Laid rel) (Heap.layOut s config) (Heap.layOut t config) := by
  unfold Heap.layOut
  simp only
  rw [sim.region hst]
  split
  case h_1 => exact .pure (.failed _ _ hst)
  case h_2 lo halign =>
    split
    case isTrue => exact .pure (.failed _ _ hst)
    case isFalse =>
      cases Links.covers ⟨lo⟩ (lo + frameSize) with
      | error e => exact .pure (.failed _ _ hst)
      | ok =>
          simp only
          rcases sim.grow hst (lo - (Storage.region s).size + frameSize) with
            ⟨hs, ht⟩ | ⟨grown, grown', base, hs, ht, hgrown⟩
          · rw [hs, ht]
            exact .pure (.failed _ _ hst)
          · rw [hs, ht]
            apply Agreed.andThen
            intro _
            have ha : Heap.Akin rel ⟨grown, config, lo, [], alignUp_mod halign⟩
                ⟨grown', config, lo, [], alignUp_mod halign⟩ := ⟨hgrown, rfl, rfl, rfl⟩
            -- the frame is written, and then the heap grows by its first block
            apply (ha.modify sim fun _ => Region.size_writeFrame).bind
            rintro ⟨h₁, _⟩ ⟨k₁, _⟩ ⟨ha₁, -⟩
            apply ((ha₁.note _).extend sim _).bind
            rintro ⟨h₂, first⟩ ⟨k₂, _⟩ ⟨ha₂, rfl⟩
            cases first with
            | error e =>
                simp only
                rw [ha₂.journal]
                exact .pure (.failed e _ ha₂.source)
            | ok a =>
                simp only
                rw [Heap.hi, Heap.hi, ha₂.region sim, ha₂.lo]
                apply Agreed.andThen
                intro top
                exact .pure (.laidOut (ha₂.note _))

end Heap.Akin

/-! ## Clients -/

structure Client.Akin (rel : σ → τ → Prop) (c : Client σ) (d : Client τ) : Prop where
  heap : c.heap.Akin rel d.heap
  live : d.live = c.live

namespace Client.Akin

variable [Storage σ] [Storage τ] {c : Client σ} {d : Client τ}

/-- A call does the same to both. -/
theorem step (ha : c.Akin rel d) (sim : Simulation rel) (call : Call) :
    Agreed (WithAnswer (Client.Akin rel)) (c.step call) (d.step call) := by
  unfold Client.step
  rw [ha.live]
  -- whatever the call is, the heaps give the same answer, from which the live pointers follow
  cases call with
  | allocate size =>
      apply (ha.heap.allocate sim size).bind
      rintro ⟨h, p⟩ ⟨k, _⟩ ⟨hk, rfl⟩
      exact .pure ⟨⟨hk, rfl⟩, rfl⟩
  | tryAllocate size =>
      apply (ha.heap.tryAllocate sim size).bind
      rintro ⟨h, granted⟩ ⟨k, _⟩ ⟨hk, rfl⟩
      cases granted with
      | error e => exact .pure ⟨⟨hk, rfl⟩, rfl⟩
      | ok p => exact .pure ⟨⟨hk, rfl⟩, rfl⟩
  | allocateZeroed count size =>
      apply (ha.heap.allocateZeroed sim count size).bind
      rintro ⟨h, p⟩ ⟨k, _⟩ ⟨hk, rfl⟩
      exact .pure ⟨⟨hk, rfl⟩, rfl⟩
  | free p =>
      apply (ha.heap.free sim p).bind
      intro h k hk
      exact .pure ⟨⟨hk, rfl⟩, rfl⟩
  | resize p size =>
      apply (ha.heap.resize sim p size).bind
      rintro ⟨h, q⟩ ⟨k, _⟩ ⟨hk, rfl⟩
      exact .pure ⟨⟨hk, rfl⟩, rfl⟩
  | write p start bytes =>
      apply (ha.heap.writePayload sim p start bytes).bind
      rintro ⟨h, fits⟩ ⟨k, _⟩ ⟨hk, rfl⟩
      exact .pure ⟨⟨hk, rfl⟩, rfl⟩

/-- So do any calls. -/
theorem perform (ha : c.Akin rel d) (sim : Simulation rel) (calls : List Call) :
    Agreed (WithAnswer (Client.Akin rel)) (c.perform calls) (d.perform calls) := by
  induction calls generalizing c d with
  | nil => exact .pure ⟨ha, rfl⟩
  | cons call calls ih =>
      apply (ha.step sim call).bind
      rintro ⟨c₁, answer⟩ ⟨d₁, _⟩ ⟨ha₁, rfl⟩
      apply (ih ha₁).bind
      rintro ⟨c₂, answers⟩ ⟨d₂, _⟩ ⟨ha₂, rfl⟩
      exact .pure ⟨ha₂, rfl⟩

end Client.Akin

/-- Nothing that is seen of a heap depends on which of two related storages it is in. -/
theorem Client.session_eq [Storage σ] [Storage τ] (sim : Simulation rel) {s : σ} {t : τ}
    (hst : rel s t) (config : Config) (calls : List Call) :
    session s config calls = session t config calls := by
  apply Agreed.eq
  apply (Heap.Akin.layOut hst sim config).bind
  intro x y hxy
  cases hxy with
  | failed reason journal related =>
      simp only
      rw [sim.region related]
      exact .refl _
  | @laidOut h k akin =>
      have hclient : Client.Akin rel ⟨h, []⟩ ⟨k, []⟩ := ⟨akin, rfl⟩
      apply (hclient.perform sim calls).bind
      rintro ⟨c, answers⟩ ⟨d, _⟩ ⟨ha, rfl⟩
      simp only
      rw [ha.heap.lo, ha.heap.region sim, ha.heap.journal, ha.live]
      exact .refl _

/-! ## Sources -/

/-- The sources hold the same bytes and may grow as far. -/
structure Source.Akin (s t : Source) : Prop where
  region : t.region = s.region
  admits : ∀ n, t.Admits n ↔ s.Admits n

namespace Source.Akin

variable {s t : Source}

/-- Akin sources grow together. -/
theorem grow (h : s.Akin t) (bytes : Nat) :
    (s.grow bytes = none ∧ t.grow bytes = none)
      ∨ ∃ s' t' base, s.grow bytes = some (s', base) ∧ t.grow bytes = some (t', base)
        ∧ s'.Akin t' := by
  rcases s with ⟨kind, region, limit, granted⟩
  rcases t with ⟨kind', region', limit', granted'⟩
  obtain rfl : region' = region := h.region
  have hiff := h.admits (region'.size + bytes)
  by_cases hadm : (⟨kind, region', limit, granted⟩ : Source).Admits (region'.size + bytes)
  · exact .inr ⟨_, _, _, dif_pos hadm, dif_pos (hiff.2 hadm), rfl, h.admits⟩
  · exact .inl ⟨dif_neg hadm, dif_neg (mt hiff.1 hadm)⟩

/-- The same change is made to the bytes of both. -/
theorem edit {α : Type} (h : s.Akin t) (f : Region → Except Fault (Region × α)) :
    Agreed (WithAnswer Source.Akin) (s.edit f) (t.edit f) := by
  rcases s with ⟨kind, region, limit, granted⟩
  rcases t with ⟨kind', region', limit', granted'⟩
  obtain rfl : region' = region := h.region
  apply Agreed.andThen
  intro x
  exact .pure ⟨⟨rfl, h.admits⟩, rfl⟩

theorem simulation : Simulation Source.Akin :=
  ⟨fun h => h.region, fun h => h.grow, fun h _ _ _ => h.edit _⟩

end Source.Akin

end BoundaryTag
