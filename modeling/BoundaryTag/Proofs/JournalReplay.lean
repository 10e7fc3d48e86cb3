import BoundaryTag.Journal.Ledger
import BoundaryTag.Proofs.FreedInAnyOrder

/-!
# JournalReplay — the events of a heap rebuild it

The events of a heap fit together: each of them changes blocks that are there when it comes, and the
ledger that is kept of them has the blocks of the heap after every call.

* `Extent.editAt_append`: a ledger finds the block that an event names.
* `Plan.follow_place`, `Plan.follow_grow` and `Plan.follow_free`: the events of a step lead the
  ledger to the blocks after it.
* `Heap.record_step`: so do those of a call, together with its pointers.
* `Client.journal_replays`: so do those of a run by the rules, from the first event on.
-/

namespace BoundaryTag

open Extent

/-! ## Finding blocks -/

namespace Extent

variable {a x n b c : Nat} {f : List Extent → Option (List Extent)} {es pre post : List Extent}

theorem editAt_append (hl : Large pre) (hx : stop a pre = x) (hne : es ≠ []) :
    editAt x f a (pre ++ es) = (f es).map (pre ++ ·) := by
  induction pre generalizing a with
  | nil =>
      cases es with
      | nil => exact absurd rfl hne
      | cons e es =>
          have hx' : a = x := hx
          rw [List.nil_append, editAt, if_pos hx']
          exact Option.map_id'.symm
  | cons e pre ih =>
      rcases Large.cons.1 hl with ⟨he, hpre⟩
      have hle := le_stop (a + e.size) pre
      rw [stop_cons] at hx
      simp only [minBlock] at he
      rw [List.cons_append, editAt, if_neg (by omega), ih hpre hx, Option.map_map]
      rfl

theorem cut_eq {need : Nat} (h : need ≤ n) :
    cut need (n - need) (⟨n, false⟩ :: post)
      = some (⟨need, true⟩ :: ⟨n - need, false⟩ :: post) := by
  rw [cut, Nat.add_sub_of_le h, if_pos rfl]

theorem turn_eq (n : Nat) (p : Bool) (es : List Extent) :
    turn p (⟨n, !p⟩ :: es) = some (⟨n, p⟩ :: es) := by
  cases p <;> rfl

theorem fuse_two (b c : Nat) (hpost : Tidy true post) :
    fuse (b + c) (⟨b, false⟩ :: ⟨c, false⟩ :: post) = some (⟨b + c, false⟩ :: post) := by
  cases post with
  | nil => exact if_pos rfl
  | cons e post =>
      rcases e with ⟨k, _ | _⟩
      · exact Bool.noConfusion hpost.allocated
      · exact if_pos rfl

/-- A free block is joined with the gaps on either side, if there is one. -/
theorem fuse_gaps (hgap : ¬(c = 0 ∧ b = 0)) (hpost : Tidy true post) :
    fuse (b + n + c) (gap b ++ ⟨n, false⟩ :: (gap c ++ post))
      = some (⟨b + n + c, false⟩ :: post) := by
  by_cases hb : b = 0
  · have hc : c ≠ 0 := fun hc => hgap ⟨hc, hb⟩
    rw [hb, gap_zero, gap_of_ne hc, Nat.zero_add]
    exact fuse_two n c hpost
  · by_cases hc : c = 0
    · rw [hc, gap_zero, gap_of_ne hb, Nat.add_zero]
      exact fuse_two b n hpost
    · rw [gap_of_ne hb, gap_of_ne hc]
      show (if b + n = b + n + c then _ else if b + n + c = b + n + c then _ else _) = _
      rw [if_neg (by omega), if_pos rfl]
      rfl

end Extent

/-- The events before the first one about `x`, and the others. -/
theorem Event.covers_apart {x : Nat} {own rest : List Event} (hown : ∀ e ∈ own, e.covers x = false)
    (hrest : ∀ e ∈ rest, e.covers x = true) :
    (own ++ rest).takeWhile (fun e => !e.covers x) = own
      ∧ (own ++ rest).dropWhile (fun e => !e.covers x) = rest := by
  have hpos : ∀ e ∈ own, (!e.covers x) = true := fun e he => by
    rw [hown e he]
    rfl
  rw [List.takeWhile_append_of_pos hpos, List.dropWhile_append_of_pos hpos]
  cases rest with
  | nil => exact ⟨List.append_nil own, rfl⟩
  | cons e rest =>
      have hneg : ¬(!e.covers x) = true := by simp [hrest e List.mem_cons_self]
      have htake : (e :: rest).takeWhile (fun e => !e.covers x) = [] :=
        List.takeWhile_cons_of_neg hneg
      rw [htake, List.append_nil]
      exact ⟨rfl, List.dropWhile_cons_of_neg hneg⟩

/-! ## Steps of a plan -/

def Plan.ledger (p : Plan) : Ledger := ⟨p.start, p.extents⟩

namespace Ledger

variable {l l' : Ledger} {lo x n : Nat} {es pre post : List Extent}
  {f : List Extent → Option (List Extent)} {events more : List Event}

theorem followAll_cons (e : Event) :
    l.followAll (e :: events) = (l.follow e).bind (·.followAll events) :=
  List.foldlM_cons ..

theorem followAll_append :
    l.followAll (events ++ more) = (l.followAll events).bind (·.followAll more) :=
  List.foldlM_append ..

theorem edit_append (hl : Large pre) (hx : stop lo pre = x) (hne : es ≠ []) :
    (⟨lo, pre ++ es⟩ : Ledger).edit x f = (f es).map fun es => ⟨lo, pre ++ es⟩ := by
  rw [edit, editAt_append hl hx hne, Option.map_map]
  rfl

/-- The events, and then the pointer that was returned, lead to the ledger `l'`. -/
def Told (l : Ledger) (events : List Event) (p : Option Nat) (l' : Ledger) : Prop :=
  (l.followAll events).bind (·.grant events p) = some l'

/-- What is granted has been split by these events or not at all. -/
theorem grant_append {a : Nat} (h : ∀ e ∈ events, e.splits a = false) :
    l.grant (events ++ more) (some a) = l.grant more (some a) := by
  have hnone : events.any (Event.splits a) = false :=
    List.any_eq_false.2 fun e he => by simp [h e he]
  rw [grant, grant, List.any_append, hnone, Bool.false_or]

end Ledger

namespace Plan

variable {q : Plan} {lo a x n need : Nat} {es : List Extent} {lists : Nat → List Nat}
  {events : List Event}

/-- The events of placing a block, and the pointer to it, lead to the blocks afterwards. -/
theorem follow_place (hl : Large es) (hx : (x, ⟨n, false⟩) ∈ located (lo + frameSize) es)
    (hneed : need ≤ n) (hplace : (⟨lo, es, lists⟩ : Plan).place x need = (q, events)) :
    Ledger.Told ⟨lo + frameSize, es⟩ events (some x) q.ledger := by
  unfold Ledger.Told
  rcases exists_split hx with ⟨pre, post, rfl, hx'⟩
  have hpre := (Large.append.1 hl).1
  by_cases hleft : minBlock ≤ n - need
  · rw [place_split lists hl hx'.symm hleft] at hplace
    cases hplace
    have hcut : (⟨lo + frameSize, pre ++ ⟨n, false⟩ :: post⟩ : Ledger).follow
        (.split x need (n - need))
        = some ⟨lo + frameSize, pre ++ (⟨need, true⟩ :: ⟨n - need, false⟩ :: post)⟩ := by
      rw [Ledger.follow, Ledger.edit_append hpre hx'.symm (List.cons_ne_nil _ _), cut_eq hneed]
      rfl
    have hsplit : [Event.split x need (n - need)].any (Event.splits x) = true := by
      simp [Event.splits]
    rw [Ledger.followAll_cons, hcut]
    show Ledger.grant _ _ (some x) = _
    rw [Ledger.grant, if_pos hsplit, ledger, List.append_assoc]
    rfl
  · rw [place_whole lists hl hx'.symm hleft] at hplace
    cases hplace
    show Ledger.edit _ x (turn true) = _
    rw [Ledger.edit_append hpre hx'.symm (List.cons_ne_nil _ _)]
    show (turn true (⟨n, !true⟩ :: post)).map _ = _
    rw [turn_eq, ledger, List.append_assoc]
    rfl

/-- The events of growing lead to the blocks afterwards. -/
theorem follow_grow (hl : Large es) (htidy : Tidy false es) (hn : 0 < n)
    (hgrow : (⟨lo, es, lists⟩ : Plan).grow n = (q, a, events)) :
    (⟨lo + frameSize, es⟩ : Ledger).followAll events = some q.ledger := by
  rcases htidy.exists_back hl with ⟨pre, b, rfl, hlast⟩
  have hpre := (Large.append.1 hl).1
  rw [grow_between lists rfl hn (Tidy.append.1 htidy).1 hlast] at hgrow
  cases hgrow
  have htop : stop (lo + frameSize) pre + b = (⟨lo + frameSize, pre ++ gap b⟩ : Ledger).top := by
    rw [Ledger.top, stop_append, stop_gap]
  rw [Ledger.followAll_cons, Ledger.follow, if_pos htop]
  by_cases hb : b = 0
  · rw [if_pos hb, hb, gap_zero, Nat.zero_add, List.append_nil]
    rfl
  · have hfuse : fuse (b + n) (gap b ++ [⟨n, false⟩]) = some [⟨b + n, false⟩] :=
      fuse_gaps (c := 0) (fun h => hb h.2) trivial
    rw [if_neg hb, List.append_assoc]
    show Ledger.followAll _ _ = _
    rw [Ledger.followAll_cons, Ledger.follow, Ledger.edit_append hpre rfl (by simp), hfuse]
    rfl

/-- The events of freeing a block lead from the blocks with that one free to those afterwards. All
of them are about it. -/
theorem follow_free (hl : Large es) (htidy : Tidy false es)
    (hx : (x, ⟨n, true⟩) ∈ located (lo + frameSize) es)
    (hfree : (⟨lo, es, lists⟩ : Plan).free x = (q, events)) :
    ((⟨lo + frameSize, es⟩ : Ledger).release x).bind (·.followAll events) = some q.ledger
      ∧ ∀ e ∈ events, e.covers x = true := by
  rcases htidy.exists_around hl hx with ⟨pre, b, f, post, rfl, hx', hlast, hpost⟩
  have hbefore := (Large.append.1 hl).1
  have hpre := (Large.append.1 hbefore).1
  have hn : 16 ≤ n := (Large.cons.1 (Large.append.1 hl).2).1
  have hstop : stop (lo + frameSize) (pre ++ gap b) = x := by rw [stop_append, stop_gap, hx']
  have hplan := free_between lists lo hl rfl rfl
    (Tidy.append.1 (Tidy.append.1 htidy).1).1 hlast hpost
  rw [hx', hfree] at hplan
  cases hplan
  have hopen : (⟨lo + frameSize, pre ++ gap b ++ ⟨n, true⟩ :: (gap f ++ post)⟩ : Ledger).release x
      = some ⟨lo + frameSize, pre ++ (gap b ++ ⟨n, false⟩ :: (gap f ++ post))⟩ := by
    rw [Ledger.release, Ledger.edit_append hbefore hstop (List.cons_ne_nil _ _)]
    show (turn false (⟨n, !false⟩ :: (gap f ++ post))).map _ = _
    rw [turn_eq, Option.map_some, List.append_assoc]
  rw [hopen]
  -- an event is noted only if the block was joined with another
  by_cases hgap : f = 0 ∧ b = 0
  · rw [if_pos hgap, hgap.1, hgap.2]
    refine ⟨?_, nofun⟩
    rw [gap_zero, Nat.zero_add, Nat.add_zero]
    rfl
  · rw [if_neg hgap]
    constructor
    · show Ledger.followAll _ _ = _
      rw [Ledger.followAll_cons, Ledger.follow, Ledger.edit_append hpre rfl (by simp),
        fuse_gaps hgap hpost]
      rfl
    · intro e he
      rw [List.mem_singleton.1 he]
      refine decide_eq_true ⟨by omega, by omega⟩

theorem covers_place (hplace : (⟨lo, es, lists⟩ : Plan).place x need = (q, events)) (a : Nat) :
    ∀ e ∈ events, e.covers a = false := by
  unfold place at hplace
  dsimp only at hplace
  split at hplace
  · cases hplace
    intro e he
    rw [List.mem_singleton.1 he]
    rfl
  · cases hplace
    exact nofun

/-- A plan grows by a free block, and the events on the way split nothing and touch no block that is
in use. -/
theorem grow_spec (hl : Large es) (htidy : Tidy false es) (hn : minBlock ≤ n)
    (hgrow : (⟨lo, es, lists⟩ : Plan).grow n = (q, a, events)) :
    q.lo = lo ∧ Large q.extents
      ∧ (∃ m, n ≤ m ∧ (a, ⟨m, false⟩) ∈ located (lo + frameSize) q.extents)
      ∧ ∀ e ∈ events, (∀ c, e.splits c = false)
        ∧ ∀ old k, (old, ⟨k, true⟩) ∈ located (lo + frameSize) es → e.covers old = false := by
  rcases htidy.exists_back hl with ⟨pre, b, rfl, hlast⟩
  have hpre := (Large.append.1 hl).1
  have hmin : 16 ≤ n := hn
  rw [grow_between lists rfl (by omega) (Tidy.append.1 htidy).1 hlast] at hgrow
  cases hgrow
  have hlarge : minBlock ≤ b + n := Nat.le_trans hn (Nat.le_add_left n b)
  refine ⟨rfl, Large.append.2 ⟨hpre, Large.cons.2 ⟨hlarge, nofun⟩⟩,
    ⟨b + n, Nat.le_add_left n b, mem_located_split _ _ _ _⟩, fun e he => ?_⟩
  rcases List.mem_cons.1 he with rfl | he
  · exact ⟨fun _ => rfl, fun _ _ _ => rfl⟩
  · split at he
    · cases he
    · rw [List.mem_singleton.1 he]
      refine ⟨fun _ => rfl, fun old k hold => decide_eq_false ?_⟩
      -- a block in use is not in the gap at the top
      rcases mem_located_append.1 hold with hold | hold
      · have := (located_bounds hold).2
        have := hpre.size hold
        simp only at *
        omega
      · exact absurd (mem_located_gap.1 hold).2.2 (by simp)

/-- The events of growing and then placing a block at the top, and the pointer to it, lead to the
blocks afterwards. None of them is about a block that was in use. -/
theorem follow_grow_place {q₁ : Plan} {more : List Event} (hl : Large es) (htidy : Tidy false es)
    (hn : minBlock ≤ n) (hneed : need ≤ n)
    (hgrow : (⟨lo, es, lists⟩ : Plan).grow n = (q₁, a, events))
    (hplace : q₁.place a need = (q, more)) :
    Ledger.Told ⟨lo + frameSize, es⟩ (events ++ more) (some a) q.ledger
      ∧ ∀ old k, (old, ⟨k, true⟩) ∈ located (lo + frameSize) es → ∀ e ∈ events ++ more,
          e.covers old = false := by
  rcases q₁ with ⟨lo₁, es₁, lists₁⟩
  rcases grow_spec hl htidy hn hgrow with ⟨hlo, hl₁, ⟨m, hm, hmem⟩, hevents⟩
  obtain rfl : lo₁ = lo := hlo
  constructor
  · have hfirst := follow_grow hl htidy (Nat.lt_of_lt_of_le (by decide) hn) hgrow
    have hthen : Ledger.Told ⟨lo₁ + frameSize, es₁⟩ more (some a) q.ledger :=
      follow_place hl₁ hmem (Nat.le_trans hneed hm) hplace
    -- growing splits nothing, so it is placing that tells how much of the block is in use
    have hgrant : ∀ l : Ledger, l.grant (events ++ more) (some a) = l.grant more (some a) :=
      fun l => l.grant_append fun e he => (hevents e he).1 a
    unfold Ledger.Told at hthen ⊢
    simp only [hgrant]
    rw [Ledger.followAll_append, hfirst]
    exact hthen
  · intro old k hold e he
    rcases List.mem_append.1 he with he | he
    · exact (hevents e he).2 old k hold
    · exact covers_place hplace old e he

/-- The events of serving a request, and the pointer that is returned, lead to the blocks
afterwards. None of them is about a block that was in use. -/
theorem follow_allocate {r : Region} {config : Config} {admits : Nat → Bool} {size : Nat}
    {answer : Except Refusal (Option Nat)} (hs : r.Settled lo es lists)
    (halloc : (⟨lo, es, lists⟩ : Plan).allocate config admits size = (q, answer, events)) :
    Ledger.Told ⟨lo + frameSize, es⟩ events (granted answer) q.ledger
      ∧ ∀ old k, (old, ⟨k, true⟩) ∈ located (lo + frameSize) es → ∀ e ∈ events,
          e.covers old = false := by
  have hl : Large es := hs.large
  unfold allocate at halloc
  split at halloc
  · cases halloc
    exact ⟨rfl, fun _ _ _ => nofun⟩
  split at halloc
  · cases halloc
    exact ⟨rfl, fun _ _ _ => nofun⟩
  rename_i need hneed
  split at halloc
  · -- a free block is large enough
    rename_i a hfirst
    rcases hs.holds.firstFit_located
      ((hs.holds.firstFit_planned need).trans (congrArg Except.ok hfirst)) with
      ⟨n, hn, hfit⟩
    rcases hplace : (⟨lo, es, lists⟩ : Plan).place a need with ⟨q', events'⟩
    rw [hplace] at halloc
    cases halloc
    exact ⟨follow_place hl hn hfit hplace, fun old _ _ => covers_place hplace old⟩
  split at halloc
  · cases halloc
    exact ⟨rfl, fun _ _ _ => nofun⟩
  -- the heap grows first
  rename_i more hgrowth
  rcases growthFor_eq_some (growth_eq_ok hgrowth) with ⟨hmin, -, -, hmore⟩
  have hfit : need ≤ more := Nat.le_trans (Nat.le_max_left need config.growFloor) hmore
  rcases hgrow : (⟨lo, es, lists⟩ : Plan).grow more with ⟨q₁, a, events₁⟩
  rcases hplace : q₁.place a need with ⟨q₂, events₂⟩
  rw [hgrow] at halloc
  dsimp only at halloc
  rw [hplace] at halloc
  cases halloc
  exact follow_grow_place hl hs.tidy hmin hfit hgrow hplace

end Plan

/-! ## Calls -/

namespace Heap

variable {h : Heap} {q : Plan} {es : List Extent} {lists : Nat → List Nat} {events : List Event}
  {answer : Answer} {p : Option Nat} {size : Nat}

/-- A payload moves: first come the events of the new block, and the last ones are about the old
block. -/
theorem record_move {old new : Nat} {q₁ : Plan} {more : List Event}
    (hs : h.region.Settled h.lo es lists) (hold : h.Releasable es (some old)) (hsize : size ≠ 0)
    (halloc : (h.planOf es lists).allocate h.config h.admits size = (q₁, .ok (some new), events))
    (hfree : q₁.free old = (q, more)) :
    Ledger.record ⟨h.lo + frameSize, es⟩
        ⟨.resize (some old) size, .pointer (some new), events ++ more⟩
      = some q.ledger := by
  rcases hold old rfl with ⟨k, hk⟩
  rcases allocate_follows hs size with ⟨h₁, q₁', answer, events', -, hplan, hf, -, hg⟩
  cases halloc.symm.trans hplan
  rcases Plan.follow_allocate hs halloc with ⟨htold, hnone⟩
  have hq₁ : (⟨h.lo, q₁.extents, q₁.lists⟩ : Plan) = q₁ := by rw [← hf.start]
  have hk₁ : (old, ⟨k, true⟩) ∈ located (h.lo + frameSize) q₁.extents := mem_inUse.1 (hg.mem hk)
  rcases Plan.follow_free hf.settled.large hf.settled.tidy hk₁ (hq₁.symm ▸ hfree) with
    ⟨hrest, hall⟩
  -- the events of the new block do not cover the old one, and those of freeing it all do
  rcases Event.covers_apart (hnone old k (mem_inUse.1 hk)) hall with ⟨htake, hdrop⟩
  obtain ⟨n, rfl⟩ : ∃ n, size = n + 1 := ⟨size - 1, by omega⟩
  have hledger : q₁.ledger = ⟨h.lo + frameSize, q₁.extents⟩ := by rw [← hq₁]; rfl
  rcases Option.bind_eq_some_iff.1 htold with ⟨l₁, hfollow, hgrant⟩
  rcases Option.bind_eq_some_iff.1 hrest with ⟨l₂, hopen, hclose⟩
  have hgrant' : l₁.grant events (some new) = some ⟨h.lo + frameSize, q₁.extents⟩ :=
    hgrant.trans (congrArg some hledger)
  show ((Ledger.followAll _ ((events ++ more).takeWhile fun e => !e.covers old)).bind fun l =>
    (l.grant ((events ++ more).takeWhile fun e => !e.covers old) (some new)).bind fun l =>
    (l.release old).bind fun l =>
    l.followAll ((events ++ more).dropWhile fun e => !e.covers old)) = _
  rw [htake, hdrop, hfollow, Option.bind_some, hgrant', Option.bind_some, hopen, Option.bind_some,
    hclose]

/-- The ledger enters a pointer that is freed before the events. -/
theorem record_release {a : Nat} (hs : h.region.Settled h.lo es lists)
    (ha : h.Releasable es (some a)) (hfree : (h.planOf es lists).free a = (q, events)) :
    ((⟨h.lo + frameSize, es⟩ : Ledger).release a).bind (·.followAll events) = some q.ledger := by
  rcases ha a rfl with ⟨n, hn⟩
  exact (Plan.follow_free hs.large hs.tidy (mem_inUse.1 hn) hfree).1

theorem record_resize {new : Option Nat} (hs : h.region.Settled h.lo es lists)
    (hp : h.Releasable es p)
    (hplan : (h.planOf es lists).resize h.config h.admits p size = (q, new, events)) :
    Ledger.record ⟨h.lo + frameSize, es⟩ ⟨.resize p size, .pointer new, events⟩
      = some q.ledger := by
  unfold Plan.resize at hplan
  by_cases hsize : size = 0
  · -- without bytes, a pointer is freed
    subst hsize
    rw [if_pos rfl] at hplan
    cases p with
    | none =>
        cases hplan
        rfl
    | some a =>
        rcases hfree : (h.planOf es lists).free a with ⟨q', events'⟩
        dsimp only at hplan
        rw [hfree] at hplan
        cases hplan
        exact record_release hs hp hfree
  · rw [if_neg hsize] at hplan
    obtain ⟨n, rfl⟩ : ∃ n, size = n + 1 := ⟨size - 1, by omega⟩
    rcases halloc : (h.planOf es lists).allocate h.config h.admits (n + 1) with ⟨q', reply, events'⟩
    have htold := (Plan.follow_allocate hs halloc).1
    rw [halloc] at hplan
    -- only a payload that there was can move, and only if it gets a new block
    rcases reply with e | _ | new
    · cases p <;> cases hplan <;> exact htold
    · cases p <;> cases hplan <;> exact htold
    · cases p with
      | none =>
          cases hplan
          exact htold
      | some old =>
          rcases hfree : q'.free old with ⟨q₂, more⟩
          dsimp only at hplan
          rw [hfree] at hplan
          cases hplan
          exact record_move hs hp hsize halloc hfree

/-- The events of a call by the rules, together with its pointers, lead to the blocks afterwards. -/
theorem record_step {call : Call} (hs : h.region.Settled h.lo es lists)
    (hp : h.Releasable es call.target)
    (hplan : (h.planOf es lists).step h.config h.admits call = (q, answer, events)) :
    Ledger.record ⟨h.lo + frameSize, es⟩ ⟨call, answer, events⟩ = some q.ledger := by
  cases call with
  | allocate size =>
      rcases halloc : (h.planOf es lists).allocate h.config h.admits size with ⟨q', reply, events'⟩
      rw [Plan.step, halloc] at hplan
      cases hplan
      exact (Plan.follow_allocate hs halloc).1
  | tryAllocate size =>
      rcases halloc : (h.planOf es lists).allocate h.config h.admits size with
        ⟨q', (e | p), events'⟩
      · -- nothing has happened for a request that was refused
        rw [Plan.step, halloc] at hplan
        cases hplan
        exact (Plan.follow_allocate hs halloc).1
      · rw [Plan.step, halloc] at hplan
        cases hplan
        exact (Plan.follow_allocate hs halloc).1
  | allocateZeroed count size =>
      rw [Plan.step] at hplan
      split at hplan
      · rcases halloc : (h.planOf es lists).allocate h.config h.admits (count * size) with
          ⟨q', reply, events'⟩
        rw [halloc] at hplan
        cases hplan
        exact (Plan.follow_allocate hs halloc).1
      · cases hplan
        rfl
  | free p =>
      cases p with
      | none =>
          cases hplan
          rfl
      | some a =>
          rcases hfree : (h.planOf es lists).free a with ⟨q', events'⟩
          rw [Plan.step, hfree] at hplan
          cases hplan
          exact record_release hs hp hfree
  | resize p size =>
      rcases hresize : (h.planOf es lists).resize h.config h.admits p size with ⟨q', new, events'⟩
      rw [Plan.step, hresize] at hplan
      cases hplan
      exact record_resize hs hp hresize
  | write p start bytes =>
      cases hplan
      rfl

end Heap

/-! ## Runs -/

namespace Client

variable {source : Source} {config : Config} {c : Client} {es : List Extent}
  {lists : Nat → List Nat} {calls : List Call}

/-- A run by the rules comes through, and its events and pointers lead the ledger to the blocks in
the end. -/
theorem transcript_follows (hs : c.heap.region.Settled c.heap.lo es lists) (hk : c.Keeps es)
    (hplays : c.Plays calls) :
    ∃ d turns es' lists', c.transcript calls = .ok (d, turns)
      ∧ c.perform calls = .ok (d, turns.map Turn.answer) ∧ turns.map Turn.call = calls
      ∧ d.heap.events = c.heap.events ++ turns.flatMap Turn.events
      ∧ d.heap.lo = c.heap.lo ∧ d.heap.region.Settled d.heap.lo es' lists'
      ∧ Ledger.replay ⟨c.heap.lo + frameSize, es⟩ turns = some ⟨c.heap.lo + frameSize, es'⟩ := by
  induction calls generalizing c es lists with
  | nil => exact ⟨c, [], es, lists, rfl, rfl, rfl, (List.append_nil _).symm, rfl, hs, rfl⟩
  | cons call calls ih =>
      rcases hplays with ⟨hallows, hrest⟩
      rcases step_follows hs hk hallows with ⟨d, answer, q, events, hstep, hplan, hf, hk', -⟩
      have hs' : d.heap.region.Settled d.heap.lo q.extents q.lists := hf.lo.symm ▸ hf.settled
      rcases ih hs' hk' (hrest d answer hstep) with
        ⟨e, turns, es', lists', htrans, hperform, hcalls, hevents, hlo, hs'', hreplay⟩
      have hledger : q.ledger = ⟨d.heap.lo + frameSize, q.extents⟩ := by
        rw [Plan.ledger, Plan.start, hf.start, hf.lo]
      -- the first call leads the ledger to the blocks from which the others start
      have hrecord := Heap.record_step hs (releasable_target hk hallows) hplan
      rw [hledger] at hrecord
      have hdrop : d.heap.events.drop c.heap.events.length = events := by
        rw [hf.events, List.drop_left]
      refine ⟨e, ⟨call, answer, events⟩ :: turns, es', lists', ?_, ?_, ?_, ?_, hlo.trans hf.lo,
        hs'', ?_⟩
      · rw [transcript, hstep, Fault.ok_bind]
        simp only
        rw [htrans, Fault.ok_bind, hdrop]
        rfl
      · exact perform_cons hstep hperform
      · rw [List.map_cons, hcalls]
      · rw [hevents, hf.events, List.flatMap_cons, List.append_assoc]
      · rw [Ledger.replay, List.foldlM_cons, hrecord]
        show Ledger.replay _ turns = _
        rw [hreplay, hf.lo]

/-- The events of a new heap begin a ledger with its first block. -/
theorem opening_eq {lo top n : Nat} (halign : alignUp top = some lo) :
    Ledger.opening top [.grow top (lo - top + frameSize), .grow (lo + frameSize) n]
      = some ⟨lo + frameSize, [⟨n, false⟩]⟩ := by
  have hle := (alignUp_eq_some.1 halign).2.2.1
  have hstart : top + (lo - top + frameSize) = lo + frameSize := by omega
  rw [Ledger.opening, halign]
  show (if top = top ∧ lo - top + frameSize = lo - top + frameSize then _ else none) = _
  have htop : lo + frameSize = (⟨lo + frameSize, []⟩ : Ledger).top := rfl
  rw [if_pos ⟨rfl, rfl⟩, hstart, Ledger.followAll_cons, Ledger.follow, if_pos htop]
  rfl

/-- Keep a ledger of a heap from the events of its layout, and of the calls that a client makes by
the rules. All events fit, and in the end the blocks of the ledger are those of the chain and fill
the region. -/
theorem journal_replays {h : Heap} (laidOut : Heap.layOut source config = .ok (.ok h))
    (hplays : Plays ⟨h, []⟩ calls) :
    ∃ d turns l s, transcript ⟨h, []⟩ calls = .ok (d, turns)
      ∧ perform ⟨h, []⟩ calls = .ok (d, turns.map Turn.answer) ∧ turns.map Turn.call = calls
      ∧ d.heap.events = h.events ++ turns.flatMap Turn.events
      ∧ (Ledger.opening source.region.size h.events).bind (·.replay turns) = some l
      ∧ d.heap.audit = .ok (.survey s) ∧ located l.start l.extents = s.chain.located
      ∧ l.top = d.heap.region.size := by
  rcases Heap.layOut_follows source config with
    ⟨lo, halign, ⟨e, he⟩ | ⟨k, n, hrun, -, rfl, -, -, hevents, -, hs⟩⟩
  · cases he.symm.trans laidOut
  · cases hrun.symm.trans laidOut
    rcases transcript_follows (c := ⟨h, []⟩) hs (keeps_nil hs rfl) hplays with
      ⟨d, turns, es', lists', htrans, hperform, hcalls, hall, hlo, hs', hreplay⟩
    refine ⟨d, turns, ⟨h.lo + frameSize, es'⟩, _, htrans, hperform, hcalls, hall, ?_,
      Heap.audit_eq hs', ?_, ?_⟩
    · rw [hevents, opening_eq halign]
      exact hreplay
    · rw [← hlo]
      exact hs'.drawn.chained.located_eq.symm
    · rw [← hlo]
      exact hs'.drawn.stop_eq

/-- The heap grows for a payload that moves, and the old block is joined with its neighbour later.
-/
theorem journal_replays_after_resize :
    ∃ h d turns l, Heap.layOut (Source.buffer 4096) ⟨64, 64⟩ = .ok (.ok h)
      ∧ transcript ⟨h, []⟩ [.allocate 12, .allocate 12, .resize (some 128) 100, .free (some 144)]
        = .ok (d, turns)
      ∧ d.heap.events
        = [.grow 0 128, .grow 128 64, .split 128 16 48, .split 144 16 32, .grow 192 104,
          .coalesce 160 136, .split 160 104 32, .coalesce 128 32]
      ∧ (Ledger.opening 0 h.events).bind (·.replay turns) = some l
      ∧ located l.start l.extents
        = [(128, ⟨32, false⟩), (160, ⟨104, true⟩), (264, ⟨32, false⟩)] := by
  have hruns : (runFrom (.buffer 4096) ⟨64, 64⟩
      [.allocate 12, .allocate 12, .resize (some 128) 100, .free (some 144)]).map
        (fun c => (c.heap.events, c.heap.survey?.map fun s => s.chain.located))
      = some ([.grow 0 128, .grow 128 64, .split 128 16 48, .split 144 16 32, .grow 192 104,
          .coalesce 160 136, .split 160 104 32, .coalesce 128 32],
        some [(128, ⟨32, false⟩), (160, ⟨104, true⟩), (264, ⟨32, false⟩)]) := by
    decide +kernel
  rcases Option.map_eq_some_iff.1 hruns with ⟨c, hrun, hc⟩
  rcases runFrom_eq_some_iff.1 hrun with ⟨h, hlay, hplays, answers, hperform⟩
  rcases journal_replays hlay hplays with
    ⟨d, turns, l, s, htrans, hperform', -, -, hreplay, haudit, hlocated, -⟩
  cases hperform.symm.trans hperform'
  rw [Heap.survey?_eq haudit] at hc
  rcases Prod.ext_iff.1 hc with ⟨hevents, hblocks⟩
  exact ⟨h, c, turns, l, hlay, htrans, hevents, hreplay, hlocated.trans (Option.some.inj hblocks)⟩

end Client

end BoundaryTag
