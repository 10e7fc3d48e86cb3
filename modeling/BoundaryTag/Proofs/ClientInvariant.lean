import BoundaryTag.Client
import BoundaryTag.Proofs.HeapOperations

/-!
# ClientInvariant — clients that play by the rules

What holds as long as all calls play by the rules.

* `Matches`: the live pointers are the blocks in use, each with room for what was asked for. It is
  kept when memory is handed out (`Matches.grant`), taken back (`Matches.drop`) and moved
  (`Matches.move`).
* `Client.Keeps` adds that the heap is settled.
* `Client.step_follows`: a call comes through as the plan says, keeps this, and leaves the blocks
  alone that it is not about, so that their payloads stay (`Spares.payload_kept`).
* `Client.live_step`: which pointers are live after a call.
* `Client.Reaches.keeps`: it holds in every state that a client reaches. Configuration and limit are
  those of the start (`Client.Reaches.origin`).
-/

namespace BoundaryTag

open Extent

/-- The pointer that a call is about. -/
def Call.target : Call → Option Nat
  | .free p => p
  | .resize p _ => p
  | .write p _ _ => some p
  | _ => none

/-! ## Live pointers and blocks in use -/

/-- The live pointers are those of the blocks in use, and each block has room. -/
structure Matches (live used : List (Nat × Nat)) : Prop where
  perm : (live.map Prod.fst).Perm (used.map Prod.fst)
  room : ∀ a size, (a, size) ∈ live → ∃ n, (a, n) ∈ used ∧ size + 4 ≤ n

variable {live used used' rest : List (Nat × Nat)} {size a n : Nat} {p : Option Nat}

theorem Matches.of_perm (h : Matches live used) (hperm : used'.Perm used) : Matches live used' := by
  refine ⟨h.perm.trans (hperm.map _).symm, fun a size ha => ?_⟩
  rcases h.room a size ha with ⟨n, hn, hsize⟩
  exact ⟨n, hperm.mem_iff.2 hn, hsize⟩

theorem Matches.grant (h : Matches live used) (hg : Grants used used' size p) :
    Matches (Client.keep live p size) used' := by
  cases p with
  | none => exact h.of_perm hg
  | some x =>
      rcases hg with ⟨n, hn, hperm⟩
      have hnew : Matches ((x, size) :: live) ((x, n) :: used) := by
        refine ⟨h.perm.cons x, fun a m ha => ?_⟩
        rcases List.mem_cons.1 ha with heq | ha
        · cases heq
          exact ⟨n, List.mem_cons_self, hn⟩
        · rcases h.room a m ha with ⟨k, hk, hm⟩
          exact ⟨k, List.mem_cons_of_mem _ hk, hm⟩
      exact hnew.of_perm hperm

theorem Drops.mem_of_ne (h : Drops used rest p) (ha : (a, n) ∈ used) (hne : p ≠ some a) :
    (a, n) ∈ rest := by
  cases p with
  | none => exact h.mem_iff.1 ha
  | some x =>
      rcases h with ⟨m, hperm⟩
      rcases List.mem_cons.1 (hperm.mem_iff.1 ha) with heq | ha
      · cases heq
        exact absurd rfl hne
      · exact ha

theorem Grants.mem (h : Grants used used' size p) (ha : (a, n) ∈ used) : (a, n) ∈ used' := by
  cases p with
  | none => exact h.mem_iff.2 ha
  | some x =>
      rcases h with ⟨m, -, hperm⟩
      exact hperm.mem_iff.2 (List.mem_cons_of_mem _ ha)

theorem map_fst_forget (live : List (Nat × Nat)) (p : Option Nat) :
    (Client.forget live p).map Prod.fst
      = (live.map Prod.fst).filter fun y => decide (some y ≠ p) := by
  rw [Client.forget, List.filter_map]
  rfl

theorem Matches.drop (h : Matches live used) (hd : Drops used rest p)
    (hnd : (used.map Prod.fst).Nodup) : Matches (Client.forget live p) rest := by
  cases p with
  | none =>
      have hforget : Client.forget live none = live := by
        refine List.filter_eq_self.2 fun q _ => ?_
        simp
      rw [hforget]
      exact h.of_perm hd.symm
  | some x =>
      rcases hd with ⟨m, hperm⟩
      have hnd' := (hperm.map Prod.fst).nodup_iff.1 hnd
      -- the addresses that are left are the same because they occur once
      have hrest : ((x, m) :: rest).map Prod.fst = x :: rest.map Prod.fst := rfl
      have hfilter : (x :: rest.map Prod.fst).filter (fun y => decide (some y ≠ some x))
          = rest.map Prod.fst := by
        rw [List.filter_cons_of_neg (by simp), List.filter_eq_self]
        intro y hy
        have hyx : y ≠ x := fun hyx => (List.nodup_cons.1 hnd').1 (hyx ▸ hy)
        simpa using hyx
      refine ⟨?_, fun a size ha => ?_⟩
      · rw [map_fst_forget, ← hfilter, ← hrest]
        exact (h.perm.trans (hperm.map Prod.fst)).filter _
      · rcases List.mem_filter.1 ha with ⟨hmem, hne⟩
        have hax : a ≠ x := by simpa using hne
        rcases h.room a size hmem with ⟨n, hn, hsize⟩
        rcases List.mem_cons.1 (hperm.mem_iff.1 hn) with heq | hn
        · cases heq
          exact absurd rfl hax
        · exact ⟨n, hn, hsize⟩

/-- A block in use that is not the one that moves is there when the new one is granted. -/
theorem mem_of_moved {moved : Prop} [Decidable moved]
    (hd : if moved then Drops used rest p else rest = used) (ha : (a, n) ∈ used)
    (hne : p ≠ some a) : (a, n) ∈ rest := by
  split at hd
  · exact hd.mem_of_ne ha hne
  · exact hd ▸ ha

/-- The old pointer of a payload that moves is dropped before the new one is granted. -/
theorem Matches.move {moved : Prop} [Decidable moved] {q : Option Nat} (h : Matches live used)
    (hnd : (used.map Prod.fst).Nodup) (hd : if moved then Drops used rest p else rest = used)
    (hg : Grants rest used' size q) :
    Matches (Client.keep (if moved then Client.forget live p else live) q size) used' := by
  refine Matches.grant ?_ hg
  by_cases hmoved : moved
  · rw [if_pos hmoved] at hd ⊢
    exact h.drop hd hnd
  · rw [if_neg hmoved] at hd ⊢
    exact hd ▸ h

/-! ## Steps -/

namespace Client

variable {c : Client} {call : Call} {es : List Extent}

/-- The heap is settled, and its blocks in use are those of the live pointers. -/
structure Keeps (c : Client) (es : List Extent) : Prop where
  settled : ∃ lists, c.heap.region.Settled c.heap.lo es lists
  live : Matches c.live (c.heap.used es)

/-- A step that leaves the bytes below the heap alone, and the blocks that it is not about. -/
structure Spares (c : Client) (es : List Extent) (target : Option Nat) (d : Client)
    (es' : List Extent) : Prop where
  lo : d.heap.lo = c.heap.lo
  below : ∀ i, i < c.heap.lo → d.heap.region.byte i = c.heap.region.byte i
  mem : ∀ a n, (a, n) ∈ c.heap.used es → target ≠ some a → (a, n) ∈ c.heap.used es'
  byte : ∀ a n, (a, n) ∈ c.heap.used es → target ≠ some a → ∀ i, a ≤ i → i + 4 < a + n →
    d.heap.region.byte i = c.heap.region.byte i

theorem used_nodup (hk : c.Keeps es) : ((c.heap.used es).map Prod.fst).Nodup := by
  rcases hk.settled with ⟨lists, hs⟩
  exact inUse_nodup hs.large

theorem pointers_nodup (hk : c.Keeps es) : c.pointers.Nodup :=
  hk.live.perm.nodup_iff.2 (used_nodup hk)

theorem releasable (hk : c.Keeps es) {p : Option Nat} (hp : c.Owns p) :
    c.heap.Releasable es p := by
  intro a ha
  rcases List.mem_map.1 (hk.live.perm.mem_iff.1 (hp a ha)) with ⟨⟨x, n⟩, hx, rfl⟩
  exact ⟨n, hx⟩

theorem owns_of_mem {p : Nat} (hp : p ∈ c.pointers) : c.Owns (some p) :=
  fun _ ha => Option.some.inj ha ▸ hp

/-- A live pointer is that of a block in use. -/
theorem exists_used (hk : c.Keeps es) {p : Nat} (hp : p ∈ c.pointers) :
    ∃ n, (p, n) ∈ c.heap.used es :=
  releasable hk (owns_of_mem hp) p rfl

/-- A call by the rules is about a block that is in use, if it is about any. -/
theorem releasable_target (hk : c.Keeps es) (ha : c.Allows call) :
    c.heap.Releasable es call.target := by
  cases call with
  | free p => exact releasable hk ha
  | resize p size => exact releasable hk ha
  | write p start bytes => exact releasable hk ha.1
  | _ => exact nofun

/-- A heap that was carried on spares the blocks that are still in use. -/
theorem spares_of_carried {h' : Heap} {es' : List Extent} {live' : List (Nat × Nat)}
    {target : Option Nat} (hc : c.heap.Carried es h' es')
    (hmem : ∀ a n, (a, n) ∈ c.heap.used es → target ≠ some a → (a, n) ∈ c.heap.used es') :
    c.Spares es target ⟨h', live'⟩ es' := by
  refine ⟨hc.lo, fun i hi => hc.frame i (.inl hi) (.inl hi), hmem, fun a n ha hne i hi hi' => ?_⟩
  exact hc.frame i (.inr ⟨a, n, ha, hi, hi'⟩) (.inr ⟨a, n, hmem a n ha hne, hi, hi'⟩)

theorem keeps_of_carried {h' : Heap} {es' : List Extent} {live' : List (Nat × Nat)}
    (hc : c.heap.Carried es h' es') (hm : Matches live' (c.heap.used es')) :
    Keeps ⟨h', live'⟩ es' := by
  rcases hc with ⟨hlo, hs, -⟩
  refine ⟨hlo.symm ▸ hs, ?_⟩
  show Matches live' (inUse (h'.lo + frameSize) es')
  rw [hlo]
  exact hm

/-- A call by the rules comes through as the plan says, and keeps what holds of live pointers. -/
theorem step_follows {lists : Nat → List Nat} (hs : c.heap.region.Settled c.heap.lo es lists)
    (hk : c.Keeps es) (ha : c.Allows call) :
    ∃ d answer q events, c.step call = .ok (d, answer)
      ∧ (c.heap.planOf es lists).step c.heap.config c.heap.admits call = (q, answer, events)
      ∧ c.heap.Follows d.heap q events ∧ d.Keeps q.extents
      ∧ c.Spares es call.target d q.extents := by
  have hnd := used_nodup hk
  -- every operation follows its plan, so what is left of a call is what it does to the live
  -- pointers
  cases call with
  | allocate size =>
      rcases Heap.allocate_follows hs size with ⟨h', q, answer, events, hrun, hplan, hf, hc, hg⟩
      refine ⟨_, .pointer (Plan.granted answer), q, events, ?_, ?_, hf,
        keeps_of_carried hc (hk.live.grant hg), spares_of_carried hc fun a n ha _ => hg.mem ha⟩
      · rw [step, hrun, Fault.ok_bind]
        rfl
      · rw [Plan.step, hplan]
  | tryAllocate size =>
      rcases Heap.tryAllocate_follows hs size with
        ⟨e, hrun, hplan⟩ | ⟨h', q, p, events, hrun, hplan, hf, hc, hg⟩
      · refine ⟨c, .refused e, c.heap.planOf es lists, [], ?_, ?_, .refl hs, hk,
          ⟨rfl, fun _ _ => rfl, fun _ _ ha _ => ha, fun _ _ _ _ _ _ _ => rfl⟩⟩
        · rw [step, hrun, Fault.ok_bind]
          rfl
        · rw [Plan.step, hplan]
      · refine ⟨_, .pointer p, q, events, ?_, ?_, hf, keeps_of_carried hc (hk.live.grant hg),
          spares_of_carried hc fun a n ha _ => hg.mem ha⟩
        · rw [step, hrun, Fault.ok_bind]
          rfl
        · rw [Plan.step, hplan]
  | allocateZeroed count size =>
      rcases Heap.allocateZeroed_follows hs count size with
        ⟨h', q, p, events, hrun, hplan, hf, hc, hg⟩
      refine ⟨_, .pointer p, q, events, ?_, hplan, hf, keeps_of_carried hc (hk.live.grant hg),
        spares_of_carried hc fun a n ha _ => hg.mem ha⟩
      rw [step, hrun, Fault.ok_bind]
      rfl
  | free p =>
      rcases Heap.free_follows hs (releasable hk ha) with ⟨h', q, events, hrun, hplan, hf, hc, hd⟩
      refine ⟨_, .done, q, events, ?_, hplan, hf, keeps_of_carried hc (hk.live.drop hd hnd),
        spares_of_carried hc fun a n ha hne => hd.mem_of_ne ha hne⟩
      rw [step, hrun, Fault.ok_bind]
      rfl
  | resize p size =>
      rcases Heap.resize_follows hs (releasable hk ha) size with
        ⟨h', q, new, rest, events, hrun, hplan, hf, hc, hd, hg⟩
      refine ⟨_, .pointer new, q, events, ?_, ?_, hf, keeps_of_carried hc (hk.live.move hnd hd hg),
        spares_of_carried hc fun a n ha hne => hg.mem (mem_of_moved hd ha hne)⟩
      · rw [step, hrun, Fault.ok_bind]
        rfl
      · rw [Plan.step, hplan]
  | write p start bytes =>
      rcases releasable hk ha.1 p rfl with ⟨n, hp⟩
      rcases Heap.writePayload_spec hs hp start bytes with ⟨h', b, hrun, hlo, hs', hbyte, hf⟩
      refine ⟨⟨h', c.live⟩, .done, c.heap.planOf es lists, [], ?_, rfl, hf,
        ⟨⟨lists, hlo.symm ▸ hs'⟩, ?_⟩, ⟨hlo, fun i hi => hbyte i ?_, fun _ _ ha _ => ha,
        fun a k ha hne i hi hi' => hbyte i ?_⟩⟩
      · rw [step, hrun, Fault.ok_bind]
        rfl
      · show Matches c.live (inUse (h'.lo + frameSize) es)
        rw [hlo]
        exact hk.live
      · have := (Heap.used_spec hs hp).1
        omega
      · -- another block in use does not overlap the one that is written to
        have := Heap.used_beside hs hp ha fun hap => hne (congrArg some hap.symm)
        omega

theorem step_spec (hk : c.Keeps es) (ha : c.Allows call) :
    ∃ d answer es', c.step call = .ok (d, answer) ∧ d.Keeps es'
      ∧ c.Spares es call.target d es' := by
  rcases hk.settled with ⟨lists, hs⟩
  rcases step_follows hs hk ha with ⟨d, answer, q, events, hrun, -, -, hk', hspares⟩
  exact ⟨d, answer, q.extents, hrun, hk', hspares⟩

/-- The live pointers after a call, as its answer tells. -/
def liveAfter (live : List (Nat × Nat)) : Call → Answer → List (Nat × Nat)
  | .allocate size, .pointer p => keep live p size
  | .tryAllocate size, .pointer p => keep live p size
  | .allocateZeroed count size, .pointer p => keep live p (count * size)
  | .free p, _ => forget live p
  | .resize p size, .pointer q =>
    keep (if size = 0 ∨ q.isSome then forget live p else live) q size
  | _, _ => live

theorem live_step {d : Client} {answer : Answer} (h : c.step call = .ok (d, answer)) :
    d.live = liveAfter c.live call answer := by
  cases call with
  | tryAllocate size =>
      rcases Fault.bind_eq_ok.1 h with ⟨⟨k, result⟩, -, h⟩
      cases result <;> cases h <;> rfl
  | _ =>
      rcases Fault.bind_eq_ok.1 h with ⟨x, -, h⟩
      cases h
      rfl

/-- The payload of a live pointer stays as it is if the step is not about it. -/
theorem Spares.payload_kept {d : Client} {es' : List Extent} {target : Option Nat} {p : Nat}
    (hspares : c.Spares es target d es') (hk : c.Keeps es) (hk' : d.Keeps es')
    (hp : p ∈ c.pointers) (hne : target ≠ some p) :
    ∃ n bytes, p ∈ d.pointers ∧ c.heap.usableSize p = .ok n ∧ c.heap.payload p = .ok bytes
      ∧ bytes.size = n ∧ d.heap.usableSize p = .ok n ∧ d.heap.payload p = .ok bytes := by
  rcases hk.settled with ⟨lists, hs⟩
  rcases hk'.settled with ⟨lists', hs'⟩
  rcases exists_used hk hp with ⟨n, hn⟩
  have hn' : (p, n) ∈ d.heap.used es' := by
    rw [Heap.used, hspares.lo]
    exact hspares.mem p n hn hne
  rcases Heap.used_spec hs hn with ⟨-, hbelow, -, h16, husable, -⟩
  rcases Heap.used_spec hs' hn' with ⟨-, hbelow', -, -, husable', -⟩
  -- the four bytes after the payload are the header of the next block
  have hslice : d.heap.region.slice p (n - 4) = c.heap.region.slice p (n - 4) :=
    Region.slice_eq_slice (by omega) (by omega) fun i hi =>
      hspares.byte p n hn hne (p + i) (by omega) (by omega)
  refine ⟨n - 4, _, ?_, husable, Heap.payload_eq hs hn, Region.size_slice (by omega), husable',
    (Heap.payload_eq hs' hn').trans (congrArg _ hslice)⟩
  exact hk'.live.perm.mem_iff.2 (List.mem_map.2 ⟨(p, n), hn', rfl⟩)

/-- No pointer is live as long as no block is in use. -/
theorem keeps_nil {h : Heap} {lists : Nat → List Nat} (hs : h.region.Settled h.lo es lists)
    (huse : h.used es = []) : Keeps ⟨h, []⟩ es := by
  refine ⟨⟨lists, hs⟩, ?_, nofun⟩
  show List.Perm [] ((h.used es).map Prod.fst)
  rw [huse]
  exact List.Perm.refl _

/-- The live pointers are the blocks in use in every state that a client reaches. -/
theorem Reaches.keeps {s : Source} {config : Config} (h : Reaches s config c) :
    ∃ es, c.Keeps es := by
  induction h with
  | @start h laidOut =>
      rcases Heap.layOut_spec s config with ⟨e, he⟩ | ⟨h', es, lists, hrun, hs, huse, -⟩
      · rw [he] at laidOut
        cases laidOut
      · rw [hrun] at laidOut
        cases laidOut
        exact ⟨es, keeps_nil hs huse⟩
  | step _ allowed done ih =>
      rcases ih with ⟨es, hk⟩
      rcases step_spec hk allowed with ⟨d, answer, es', hrun, hk', -⟩
      rw [hrun] at done
      cases done
      exact ⟨es', hk'⟩

/-- A heap keeps its configuration, and how far it may grow. -/
theorem Reaches.origin {source : Source} {config : Config} (hc : Reaches source config c) :
    c.heap.config = config ∧ c.heap.admits = fun size => decide (source.Admits size) := by
  induction hc with
  | @start h laidOut =>
      rcases Heap.layOut_spec source config with
        ⟨e, he⟩ | ⟨k, es, lists, hrun, -, -, hconfig, hadmits, -⟩
      · cases he.symm.trans laidOut
      · cases hrun.symm.trans laidOut
        exact ⟨hconfig, hadmits⟩
  | @step c d call answer reached allowed done ih =>
      rcases reached.keeps with ⟨es, hk⟩
      rcases hk.settled with ⟨lists, hs⟩
      rcases step_follows hs hk allowed with ⟨d', answer', q, events, hstep, -, hf, -, -⟩
      cases hstep.symm.trans done
      exact ⟨hf.config.trans ih.1, hf.admits.trans ih.2⟩

/-! ## Runs -/

instance (c : Client) (p : Option Nat) : Decidable (c.Owns p) :=
  match p with
  | none => .isTrue nofun
  | some a => decidable_of_iff (a ∈ c.pointers)
      ⟨fun h _ hb => Option.some.inj hb ▸ h, fun h => h a rfl⟩

instance (c : Client) (call : Call) : Decidable (c.Allows call) :=
  match call with
  | .allocate _ => .isTrue trivial
  | .tryAllocate _ => .isTrue trivial
  | .allocateZeroed _ _ => .isTrue trivial
  | .free p => inferInstanceAs (Decidable (c.Owns p))
  | .resize p _ => inferInstanceAs (Decidable (c.Owns p))
  | .write p start bytes =>
      have : Decidable (∃ n, c.heap.usableSize p = .ok n ∧ start + bytes.size ≤ n) :=
        match c.heap.usableSize p with
        | .ok n => decidable_of_iff (start + bytes.size ≤ n)
            ⟨fun h => ⟨n, rfl, h⟩, fun ⟨_, hn, h⟩ => Except.ok.inj hn ▸ h⟩
        | .error _ => .isFalse nofun
      inferInstanceAs (Decidable (c.Owns (some p) ∧ _))

def run (c : Client) : List Call → Option Client
  | [] => some c
  | call :: calls =>
      if c.Allows call then
        match c.step call with
        | .ok (d, _) => d.run calls
        | .error _ => none
      else
        none

def runFrom (s : Source) (config : Config) (calls : List Call) : Option Client :=
  match Heap.layOut s config with
  | .ok (.ok h) => run ⟨h, []⟩ calls
  | _ => none

variable {s : Source} {config : Config} {calls more : List Call} {d e : Client}

theorem perform_cons {answer : Answer} {answers : List Answer}
    (hstep : c.step call = .ok (d, answer)) (hrest : d.perform calls = .ok (e, answers)) :
    c.perform (call :: calls) = .ok (e, answer :: answers) := by
  rw [perform, hstep, Fault.ok_bind]
  simp only
  rw [hrest, Fault.ok_bind, Fault.pure_eq_ok]

theorem run_cons (ha : c.Allows call) {answer : Answer} (hs : c.step call = .ok (d, answer)) :
    c.run (call :: calls) = d.run calls := by
  rw [run, if_pos ha, hs]

theorem run_append (h : c.run calls = some d) : c.run (calls ++ more) = d.run more := by
  induction calls generalizing c with
  | nil =>
      cases h
      rfl
  | cons call calls ih =>
      rw [run] at h
      rw [List.cons_append, run]
      split at h
      case isFalse => cases h
      case isTrue ha =>
        rw [if_pos ha]
        split at h
        · exact ih h
        · cases h

/-- Such a run is one in which all calls play by the rules and come through. -/
theorem run_eq_some_iff :
    c.run calls = some d ↔ c.Plays calls ∧ ∃ answers, c.perform calls = .ok (d, answers) := by
  induction calls generalizing c with
  | nil =>
      constructor
      · intro h
        cases h
        exact ⟨trivial, [], rfl⟩
      · rintro ⟨-, answers, h⟩
        cases h
        rfl
  | cons call calls ih =>
      constructor
      · intro h
        rw [Client.run] at h
        split at h
        case isFalse => cases h
        case isTrue ha =>
          split at h
          case h_2 => cases h
          case h_1 e answer hstep =>
            rcases ih.1 h with ⟨hplays, answers, hperform⟩
            refine ⟨⟨ha, fun e' answer' hstep' => ?_⟩, answer :: answers, ?_⟩
            · cases hstep.symm.trans hstep'
              exact hplays
            · exact perform_cons hstep hperform
      · rintro ⟨⟨ha, hrest⟩, answers, h⟩
        rw [perform] at h
        rcases Fault.bind_eq_ok.1 h with ⟨⟨e, answer⟩, hstep, h⟩
        rcases Fault.bind_eq_ok.1 h with ⟨⟨d', answers'⟩, hperform, h⟩
        cases h
        rw [run_cons ha hstep]
        exact ih.2 ⟨hrest e answer hstep, answers', hperform⟩

theorem Reaches.run (hc : Reaches s config c) (h : c.run calls = some d) : Reaches s config d := by
  induction calls generalizing c with
  | nil =>
      cases h
      exact hc
  | cons call calls ih =>
      rw [Client.run] at h
      split at h
      case isFalse => cases h
      case isTrue ha =>
        split at h
        case h_1 hstep => exact ih (hc.step ha hstep) h
        case h_2 => cases h

/-- What a run on a new heap comes to. -/
theorem runFrom_eq_some_iff :
    runFrom s config calls = some c ↔ ∃ h, Heap.layOut s config = .ok (.ok h)
      ∧ Plays ⟨h, []⟩ calls ∧ ∃ answers, perform ⟨h, []⟩ calls = .ok (c, answers) := by
  constructor
  · intro h
    rw [runFrom] at h
    split at h
    case h_1 k laidOut => exact ⟨k, laidOut, run_eq_some_iff.1 h⟩
    case h_2 => cases h
  · rintro ⟨h, laidOut, hrun⟩
    rw [runFrom, laidOut]
    exact run_eq_some_iff.2 hrun

/-- The states that a client reaches are the results of runs on a new heap. -/
theorem reaches_iff : Reaches s config c ↔ ∃ calls, runFrom s config calls = some c := by
  constructor
  · intro hc
    induction hc with
    | start laidOut => exact ⟨[], by rw [runFrom, laidOut]; rfl⟩
    | @step c d call answer _ allowed done ih =>
        rcases ih with ⟨calls, h⟩
        refine ⟨calls ++ [call], ?_⟩
        unfold runFrom at h ⊢
        split at h
        · exact (run_append h).trans (run_cons allowed done)
        · cases h
  · rintro ⟨calls, h⟩
    unfold runFrom at h
    split at h
    case h_1 laidOut => exact (Reaches.start laidOut).run h
    case h_2 => cases h

end Client

end BoundaryTag
