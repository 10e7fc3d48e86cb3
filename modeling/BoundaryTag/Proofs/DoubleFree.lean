import BoundaryTag.Proofs.EmptyReports
import BoundaryTag.Proofs.ClientInvariant
import BoundaryTag.Proofs.SecondRelease

/-!
# DoubleFree — what the check sees of a block that is freed twice

Freeing the same block twice corrupts the heap. The check reports it, or the second call stops half
way, except in one case, where it takes blocks that are live for part of the freed one.

* `Heap.Around` names what is around a block in use.
* `Heap.freed_twice_iff`: the exact case, for any heap that the check finds nothing in.
* `Client.Reaches.freed_twice_seen_iff`: for every live pointer of every run.
* `Client.swallowed`: a run in which nothing is reported, although a live block was lost.
-/

namespace BoundaryTag

open Extent

namespace Heap

variable {h h' : Heap} {es : List Extent} {lists : Nat → List Nat} {p x b n f : Nat}
  {pre post : List Extent} {l₁ l₂ : List Nat}

/-- The block in use at `p` has `n` bytes, and gaps of `b` and of `f` bytes on either side. The
first gap begins at `x`, the second one is between `l₁` and `l₂` in its list. -/
structure Around (h : Heap) (p x b n f : Nat) (pre post : List Extent) (lists : Nat → List Nat)
    (l₁ l₂ : List Nat) : Prop where
  settled : h.region.Settled h.lo (pre ++ gap b ++ ⟨n, true⟩ :: (gap f ++ post)) lists
  start : stop (h.lo + frameSize) pre = x
  place : x + b = p
  before : lastFree false pre = false
  after : Tidy true post
  alone : f = 0 → l₁ = [] ∧ l₂ = []
  beside : f ≠ 0 → lists (SizeClass.of f) = l₁ ++ (p + n) :: l₂

/-- Every block in use has its surroundings. -/
theorem exists_around (hs : h.region.Settled h.lo es lists) (hp : (p, n) ∈ h.used es) :
    ∃ x b f pre post l₁ l₂, h.Around p x b n f pre post lists l₁ l₂ := by
  rcases hs.tidy.exists_around hs.large (mem_inUse.1 hp) with
    ⟨pre, b, f, post, rfl, hplace, hpre, hpost⟩
  by_cases hf : f = 0
  · exact ⟨_, b, f, pre, post, [], [], hs, rfl, hplace, hpre, hpost, fun _ => ⟨rfl, rfl⟩,
      fun hc => absurd hf hc⟩
  · have hmem : (p + n, ⟨f, false⟩) ∈ located (h.lo + frameSize)
        (pre ++ gap b ++ ⟨n, true⟩ :: (gap f ++ post)) := by
      rw [← hplace]
      exact mem_located_behind rfl hf
    have hlisted : p + n ∈ lists (SizeClass.of f) := (hs.listed _ _).2 ⟨by omega, f, hmem, rfl⟩
    rcases List.append_of_mem hlisted with ⟨l₁, l₂, hsplit⟩
    exact ⟨_, b, f, pre, post, l₁, l₂, hs, rfl, hplace, hpre, hpost, fun hc => absurd hc hf,
      fun _ => hsplit⟩

/-- A change of the bytes that comes through has changed nothing else. -/
theorem perform_eq_ok {g : Region → Except Fault (Region × List Event)}
    (hrun : h.perform g = .ok h') :
    ∃ s events, g h.region = .ok (s, events) ∧ h'.region = s ∧ h'.lo = h.lo := by
  rcases Fault.bind_eq_ok.1 hrun with ⟨⟨h₁, events⟩, hedit, hnote⟩
  rcases edit_eq_ok hedit with ⟨s, hg, rfl⟩
  cases hnote
  exact ⟨s, events, hg, rfl, rfl⟩

/-- A check that comes through reports something, or the heap is settled. -/
theorem reports_iff (hlo : h.lo + frameSize ≤ h.region.size)
    (hspan : h.region.size - h.lo < 0x100000000) :
    (∃ v vs, h.check = .ok (v :: vs)) ↔ ¬∃ es lists, h.region.Settled h.lo es lists := by
  rw [← check_eq_nil_iff hspan]
  rcases check_total hlo with ⟨_ | ⟨v, vs⟩, hvs⟩
  · rw [hvs]
    simp
  · rw [hvs]
    simp

/-- Freeing a block twice stops half way or is reported, unless it goes unseen. -/
theorem freed_twice_iff (ha : h.Around p x b n f pre post lists l₁ l₂) :
    ∃ h₁, h.free (some p) = .ok h₁
      ∧ ((∀ h₂, h₁.free (some p) = .ok h₂ → ∃ v vs, h₂.check = .ok (v :: vs))
        ↔ ¬h₁.region.Unseen h.lo x b n f pre (Plan.drop lists x (x + (b + n + f))) l₁ l₂) := by
  have hplace := ha.place
  subst hplace
  -- the first call comes through and leaves a settled heap
  rcases ha.settled.released ha.start ha.before ha.after ha.alone ha.beside with
    ⟨r, events, hrelease, hsize, hreleased⟩
  have hfree : h.free (some (x + b)) = .ok ((h.withRegion r).noteEvents events) :=
    perform_eq hrelease
  refine ⟨_, hfree, ?_⟩
  rw [region_noteEvents, region_withRegion, ← hreleased.settled_again_iff]
  have hlo : h.lo + frameSize ≤ r.size := hreleased.settled.drawn.le_size
  have hspan := hreleased.settled.drawn.span
  -- the second one moves no end, so a check of what it leaves comes through
  constructor
  · rintro hseen ⟨t, events', es, lists', hagain, ht⟩
    have hfree' : ((h.withRegion r).noteEvents events).free (some (x + b))
        = .ok ((((h.withRegion r).noteEvents events).withRegion t).noteEvents events') :=
      perform_eq hagain
    have hsize' := hreleased.size_again hagain
    have hreports := (reports_iff (by simpa [hsize'] using hlo) (by simpa [hsize'] using hspan)).1
      (hseen _ hfree')
    exact hreports ⟨es, lists', ht⟩
  · intro hunseen h₂ hfree'
    rcases perform_eq_ok hfree' with ⟨t, events', hagain, ht, hlo'⟩
    have hsize' := hreleased.size_again hagain
    have hlo' : h₂.lo = h.lo := hlo'
    refine (reports_iff (by rw [ht, hlo', hsize']; exact hlo)
      (by rw [ht, hlo', hsize']; exact hspan)).2 ?_
    rintro ⟨es, lists', hsettled⟩
    rw [ht, hlo'] at hsettled
    exact hunseen ⟨t, events', es, lists', hagain, hsettled⟩

end Heap

namespace Client

variable {source : Source} {config : Config} {c : Client} {p : Nat}

/-- Freeing a live pointer twice stops half way or is reported by the check, unless it goes unseen.
-/
theorem Reaches.freed_twice_seen_iff (hc : Reaches source config c) (hp : p ∈ c.pointers) :
    ∃ x b n f pre post lists l₁ l₂ h₁, c.heap.Around p x b n f pre post lists l₁ l₂
      ∧ c.heap.free (some p) = .ok h₁
      ∧ ((∀ h₂, h₁.free (some p) = .ok h₂ → ∃ v vs, h₂.check = .ok (v :: vs))
        ↔ ¬h₁.region.Unseen c.heap.lo x b n f pre (Plan.drop lists x (x + (b + n + f))) l₁ l₂) := by
  rcases hc.keeps with ⟨es, hk⟩
  rcases hk.settled with ⟨lists, hs⟩
  have howns := owns_of_mem hp
  rcases releasable hk howns p rfl with ⟨n, hn⟩
  rcases Heap.exists_around hs hn with ⟨x, b, f, pre, post, l₁, l₂, haround⟩
  rcases Heap.freed_twice_iff haround with ⟨h₁, hfree, hiff⟩
  exact ⟨x, b, n, f, pre, post, lists, l₁, l₂, h₁, haround, hfree, hiff⟩

/-- The first of four blocks is free. Freeing the second one twice leaves nothing to report. -/
theorem exists_unreported :
    ∃ c, Reaches (.buffer 4096) ⟨64, 64⟩ c ∧ c.live = [(176, 12), (160, 12), (144, 12)]
      ∧ (do
          let h ← c.heap.free (some 144)
          let h ← h.free (some 144)
          h.check) = .ok [] := by
  have hrun : (runFrom (.buffer 4096) ⟨64, 64⟩ [.allocate 12, .allocate 12, .allocate 12,
      .allocate 12, .free (some 128)]).map (fun c => (c.live, (do
        let h ← c.heap.free (some 144)
        let h ← h.free (some 144)
        h.check).toOption)) = some ([(176, 12), (160, 12), (144, 12)], some []) := by
    decide +kernel
  rcases Option.map_eq_some_iff.1 hrun with ⟨c, hc, heq⟩
  rcases Prod.mk.inj heq with ⟨hlive, hcheck⟩
  exact ⟨c, reaches_iff.2 ⟨_, hc⟩, hlive, Fault.toOption_eq_some.1 hcheck⟩

theorem freed_twice_seen_iff_after_free :
    ∃ c, Reaches (.buffer 4096) ⟨64, 64⟩ c ∧ c.live = [(176, 12), (160, 12), (144, 12)]
      ∧ 144 ∈ c.pointers
      ∧ ∃ x b n f pre post lists l₁ l₂ h₁, c.heap.Around 144 x b n f pre post lists l₁ l₂
        ∧ c.heap.free (some 144) = .ok h₁
        ∧ ((∀ h₂, h₁.free (some 144) = .ok h₂ → ∃ v vs, h₂.check = .ok (v :: vs))
          ↔ ¬h₁.region.Unseen c.heap.lo x b n f pre (Plan.drop lists x (x + (b + n + f)))
            l₁ l₂) := by
  rcases exists_unreported with ⟨c, hreach, hlive, -⟩
  have hmem : 144 ∈ c.pointers := by
    rw [pointers, hlive]
    decide
  exact ⟨c, hreach, hlive, hmem, hreach.freed_twice_seen_iff hmem⟩

/-- The second free takes the live block at 160 for a part of the one at 144, and the check finds
nothing. -/
theorem swallowed :
    ∃ c h₁ h₂, Reaches (.buffer 4096) ⟨64, 64⟩ c ∧ c.live = [(176, 12), (160, 12), (144, 12)]
      ∧ c.heap.free (some 144) = .ok h₁ ∧ h₁.free (some 144) = .ok h₂ ∧ h₂.check = .ok [] := by
  rcases exists_unreported with ⟨c, hreach, hlive, hchecked⟩
  rcases Fault.bind_eq_ok.1 hchecked with ⟨h₁, hfree, hrest⟩
  rcases Fault.bind_eq_ok.1 hrest with ⟨h₂, hagain, hnone⟩
  exact ⟨c, h₁, h₂, hreach, hlive, hfree, hagain, hnone⟩

end Client

end BoundaryTag
