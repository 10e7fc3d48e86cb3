import BoundaryTag.Client.Origin
import BoundaryTag.Proofs.FreeSupply
import BoundaryTag.Proofs.Resizing
import BoundaryTag.Proofs.ExactReports

/-!
# LiveBlockSizes — the size of a live block

A live block has the size that its request needed, or eight bytes more. It keeps the size that it
was given, whatever becomes of the blocks around it.

* `Plan.step_eq_pointer`: a call that returns a pointer has allocated it, and may then have freed
  the block of an old one.
* `Heap.cutFrom_of_supplies`: what serves a request in a plan is a free block of a heap.
* `Client.step_apportions`: the block that is handed out has the right size.
* `Client.usableSize_step`: a pointer that stays live keeps its block.
* `Client.Obtained.apportions`: the size of a live block is right by every history of its pointer.
* `Client.Reaches.apportioned` puts them together for every state that a client reaches.
-/

namespace BoundaryTag

open Extent

/-! ## Pointers that are returned -/

namespace Plan

variable {p r : Plan} {config : Config} {admits : Nat → Bool} {call : Call} {a : Nat}
  {events : List Event}

/-- A pointer to which a payload has moved was allocated, and the old block, if any, freed after
that. -/
theorem resize_eq_some {x : Option Nat} {size : Nat}
    (h : p.resize config admits x size = (r, some a, events)) :
    ∃ q more, p.allocate config admits size = (q, .ok (some a), more)
      ∧ (r = q ∨ ∃ old, x = some old ∧ r = (q.free old).1) := by
  unfold resize at h
  split at h
  case isTrue =>
    cases x with
    | none => cases h
    | some old => cases h
  case isFalse =>
    rcases hq : p.allocate config admits size with ⟨q, answer, more⟩
    rw [hq] at h
    cases answer with
    | error e => cases h
    | ok y =>
        cases y with
        | none => cases x <;> cases h
        | some new =>
            cases x with
            | none =>
                cases h
                exact ⟨_, _, rfl, .inl rfl⟩
            | some old =>
                cases h
                exact ⟨_, _, rfl, .inr ⟨old, rfl, rfl⟩⟩

/-- A pointer that is returned was allocated for what the call asks for. Only the block that the
call is about may have been freed after that. -/
theorem step_eq_pointer (h : p.step config admits call = (r, .pointer (some a), events)) :
    ∃ size q more, call.request = some size
      ∧ p.allocate config admits size = (q, .ok (some a), more)
      ∧ (r = q ∨ ∃ old, call.target = some old ∧ r = (q.free old).1) := by
  cases call with
  | allocate size =>
      rcases hq : p.allocate config admits size with ⟨q, answer, more⟩
      rw [step, hq] at h
      cases answer with
      | error e => cases h
      | ok x =>
          cases h
          exact ⟨size, _, _, rfl, hq, .inl rfl⟩
  | tryAllocate size =>
      rcases hq : p.allocate config admits size with ⟨q, answer, more⟩
      rw [step, hq] at h
      cases answer with
      | error e => cases h
      | ok x =>
          cases h
          exact ⟨size, _, _, rfl, hq, .inl rfl⟩
  | allocateZeroed count size =>
      rw [step] at h
      split at h
      case isFalse => cases h
      case isTrue =>
        rcases hq : p.allocate config admits (count * size) with ⟨q, answer, more⟩
        rw [hq] at h
        cases answer with
        | error e => cases h
        | ok x =>
            cases h
            exact ⟨count * size, _, _, rfl, hq, .inl rfl⟩
  | free x =>
      cases x with
      | none => cases h
      | some old => cases h
  | resize x size =>
      -- the old block is freed only after the new one was allocated
      rcases hq : p.resize config admits x size with ⟨q, b, more⟩
      rw [step, hq] at h
      cases h
      rcases resize_eq_some hq with ⟨q', more', halloc, hr⟩
      exact ⟨size, q', more', rfl, halloc, hr⟩
  | write x start bytes => cases h

end Plan

/-! ## Blocks that serve a request -/

namespace Heap

variable {h g g' : Heap} {es : List Extent} {lists : Nat → List Nat} {need a : Nat} {q : Plan}

/-- A request is served by one heap only. -/
theorem CutFrom.unique (hg : h.CutFrom need a g) (hg' : h.CutFrom need a g') : g = g' := by
  cases hg with
  | found hfit =>
      cases hg' with
      | found => rfl
      | grown hnone => cases hfit.symm.trans hnone
  | grown hnone hext =>
      cases hg' with
      | found hfit => cases hfit.symm.trans hnone
      | grown hnone' hext' =>
          cases hext.symm.trans hext'
          rfl

/-- What serves a request in the plan of a heap is a free block of the heap, or of the heap after
growth. -/
theorem cutFrom_of_supplies (hs : h.region.Settled h.lo es lists)
    (hsup : (h.planOf es lists).Supplies h.config h.admits need a q) :
    ∃ g n, h.CutFrom need a g ∧ q.lo = g.lo ∧ g.region.Settled g.lo q.extents q.lists
      ∧ (a, ⟨n, false⟩) ∈ located q.start q.extents ∧ need ≤ n := by
  have hsearch : h.lists.firstFit h.region need = .ok ((h.planOf es lists).firstFit need) :=
    hs.holds.firstFit_planned need
  cases hsup with
  | found hfit =>
      rw [hfit] at hsearch
      rcases hs.holds.firstFit_located hsearch with ⟨n, hn, hle⟩
      exact ⟨h, n, .found hsearch, rfl, hs, hn, hle⟩
  | grown hnone hgrowth hgrow =>
      rw [hnone] at hsearch
      rcases extend_follows hs (max need h.config.growFloor) with
        ⟨e, -, herror⟩ | ⟨g, pre, m, lists', n, events, hext, -, hgrowth', hgrow', hf, hle, -, -⟩
      · cases herror.symm.trans hgrowth
      · cases hgrowth'.symm.trans hgrowth
        cases hgrow'.symm.trans hgrow
        refine ⟨g, m, .grown hsearch hext, hf.lo.symm, hf.lo.symm ▸ hf.settled, ?_,
          Nat.le_trans (Nat.le_max_left _ _) hle⟩
        exact mem_located_split _ _ _ _

end Heap

/-! ## Sizes -/

/-- Sizes are multiples of eight, so a block is either split off or has at most eight bytes to
spare. -/
theorem Plan.mem_inUse_place {p : Plan} {a n need : Nat} (hl : Large p.extents)
    (ha : (a, ⟨n, false⟩) ∈ located p.start p.extents) (hmin : minBlock ≤ need) (hfit : need ≤ n)
    (hneed : need % 8 = 0) (hn : n % 8 = 0) :
    ∃ m, (a, m) ∈ inUse (p.place a need).1.start (p.place a need).1.extents
      ∧ (m = need ∨ m = need + 8) ∧ (m = need + 8 ↔ n = need + 8) := by
  rcases exists_place hl ha hmin hfit with ⟨pre, post, m, f, lists, -, hx, hplace, -, hsum, hcut, -⟩
  rw [hplace]
  refine ⟨m, mem_inUse.2 ?_, ?_⟩
  · rw [← hx]
    exact mem_located_split _ _ _ _
  · simp only [minBlock] at hcut
    omega

namespace Client

variable {source : Source} {config : Config} {c d : Client} {call : Call} {answer : Answer}
  {es : List Extent} {lists : Nat → List Nat} {p size : Nat}

/-- The block that is handed out is still in use when the block of another pointer was freed after
that. -/
theorem mem_used_granted {q r : Plan} {more : List Event} {m : Nat}
    (hs : c.heap.region.Settled c.heap.lo es lists) (hk : c.Keeps es) (ha : c.Allows call)
    (halloc : (c.heap.planOf es lists).allocate c.heap.config c.heap.admits size
      = (q, .ok (some p), more))
    (hm : (p, m) ∈ inUse q.start q.extents)
    (hr : r = q ∨ ∃ old, call.target = some old ∧ r = (q.free old).1) :
    (p, m) ∈ c.heap.used r.extents := by
  rcases Heap.allocate_follows hs size with ⟨h, q', answer, events, -, hplan, hf, -, hgrants⟩
  cases hplan.symm.trans halloc
  have hstart : q.start = c.heap.lo + frameSize := by rw [Plan.start, hf.start]
  rw [hstart] at hm
  rcases hr with rfl | ⟨old, htarget, rfl⟩
  · exact hm
  · rcases releasable_target hk ha old htarget with ⟨k, hold⟩
    rcases hgrants with ⟨j, -, hperm⟩
    have hold' : (old, k) ∈ c.heap.used q.extents := hperm.mem_iff.2 (List.mem_cons_of_mem _ hold)
    -- the other block was in use before, so it is not the new one
    have hnew : p ∉ (c.heap.used es).map Prod.fst := Heap.used_fresh hf.settled.large hperm
    have hothers := Plan.inUse_free hf.settled.large hf.settled.tidy
      (hstart.symm ▸ mem_inUse.1 hold')
    rw [hstart] at hothers
    rcases List.mem_cons.1 (hothers.mem_iff.1 hm) with heq | hrest
    · cases heq
      exact absurd (List.mem_map.2 ⟨_, hold, rfl⟩) hnew
    · exact hrest

/-- The block that is handed out has the size that was needed, or eight bytes more if the free block
that it was cut from had so many. -/
theorem step_apportions (hs : c.heap.region.Settled c.heap.lo es lists) (hk : c.Keeps es)
    (ha : c.Allows call) (hstep : c.step call = .ok (d, .pointer (some p))) :
    ∃ size need g s b n, call.request = some size ∧ blockFor size = some need
      ∧ c.heap.CutFrom need p g ∧ g.audit = .ok (.survey s)
      ∧ b ∈ s.chain.blocks ∧ b.isFree = true ∧ b.addr = p ∧ need ≤ b.tag.size
      ∧ d.heap.usableSize p = .ok n ∧ (n + 4 = need ∨ n + 4 = need + 8)
      ∧ (n + 4 = need + 8 ↔ b.tag.size = need + 8) := by
  rcases step_follows hs hk ha with ⟨d', answer, r, events, hstep', hplan, hf, hk', -⟩
  cases hstep'.symm.trans hstep
  rcases Plan.step_eq_pointer hplan with ⟨size, q, more, hrequest, halloc, hr⟩
  rcases Plan.allocate_eq_some halloc with ⟨need, q₀, hneed, hsup, rfl⟩
  rcases Heap.blockFor_eq_some hneed with ⟨hmin, h8, -⟩
  rcases Heap.cutFrom_of_supplies hs hsup with ⟨g, n, hcut, hlo, hsg, hn, hfit⟩
  have hn' : (p, ⟨n, false⟩) ∈ located (g.lo + frameSize) q₀.extents := by
    rw [← hlo]
    exact hn
  have hn8 : n % 8 = 0 := (hsg.drawn.located hn').2.2.2.2
  rcases Plan.mem_inUse_place hsg.large hn hmin hfit h8 hn8 with ⟨m, hm, hsize, hlarger⟩
  -- what came into use is the block of the pointer
  have hused : (p, m) ∈ d.heap.used r.extents := by
    rw [Heap.used, hf.lo]
    exact mem_used_granted hs hk ha halloc hm hr
  rcases hk'.settled with ⟨lists', hs'⟩
  rcases Heap.used_spec hs' hused with ⟨-, -, -, h16, husable, -⟩
  rcases Heap.blockAt_mem_surveyOf hsg.holds hn' with ⟨hb, hbfree, hbsize⟩
  refine ⟨size, need, g, _, _, m - 4, hrequest, (Option.filter_eq_some_iff.1 hneed).1, hcut,
    Heap.audit_eq hsg, hb, hbfree, Region.addr_blockAt _ _, hbsize.symm ▸ hfit, husable, ?_, ?_⟩
  · rwa [Nat.sub_add_cancel (Nat.le_trans (by decide) h16)]
  · rwa [Nat.sub_add_cancel (Nat.le_trans (by decide) h16), hbsize]

/-! ## Pointers that stay live -/

theorem not_mem_forget : p ∉ (forget c.live (some p)).map Prod.fst := by
  rw [map_fst_forget]
  intro hmem
  exact of_decide_eq_true (List.mem_filter.1 hmem).2 rfl

theorem usableSize_write {start : Nat} {bytes : ByteArray} (hk : c.Keeps es)
    (hstep : c.step (.write p start bytes) = .ok (d, answer)) (hp : p ∈ c.pointers) :
    d.heap.usableSize p = c.heap.usableSize p := by
  rcases hk.settled with ⟨lists, hs⟩
  rcases exists_used hk hp with ⟨n, hn⟩
  rcases Fault.bind_eq_ok.1 hstep with ⟨⟨h, fits⟩, hrun, hd⟩
  cases hd
  rcases Heap.writePayload_spec hs hn start bytes with ⟨h', b, hrun', hlo, hs', -, -⟩
  cases hrun'.symm.trans hrun
  have hn' : (p, n) ∈ h.used es := by
    rw [Heap.used, hlo]
    exact hn
  rcases Heap.used_spec hs hn with ⟨-, -, -, -, hsize, -⟩
  rcases Heap.used_spec (hlo.symm ▸ hs') hn' with ⟨-, -, -, -, hsize', -⟩
  exact hsize'.trans hsize.symm

/-- A pointer that is live before a call and after it keeps its block. -/
theorem usableSize_step (hk : c.Keeps es) (ha : c.Allows call)
    (hstep : c.step call = .ok (d, answer)) (hp : p ∈ c.pointers) (hp' : p ∈ d.pointers) :
    d.heap.usableSize p = c.heap.usableSize p := by
  by_cases htarget : call.target = some p
  case neg =>
    rcases step_spec hk ha with ⟨d', answer', es', hstep', hk', hspares⟩
    cases hstep'.symm.trans hstep
    rcases hspares.payload_kept hk hk' hp htarget with ⟨n, bytes, -, hsize, -, -, hsize', -⟩
    exact hsize'.trans hsize.symm
  case pos =>
    -- a call that is about the pointer frees it, moves it or writes inside of its payload
    cases call with
    | free x =>
        obtain rfl : x = some p := htarget
        rw [pointers, live_step hstep] at hp'
        exact absurd hp' not_mem_forget
    | resize x size =>
        obtain rfl : x = some p := htarget
        rcases Nat.eq_zero_or_pos size with rfl | hpos
        · rcases step_release hk hp with ⟨d', -, hstep', hleft, -⟩
          cases hstep'.symm.trans hstep
          rw [hleft] at hp'
          exact absurd hp' (pointers_nodup hk).not_mem_erase
        · have hsize : size ≠ 0 := Nat.ne_of_gt hpos
          rcases step_resize hk hp hsize with ⟨d', q, hstep', hmoved⟩
          cases hstep'.symm.trans hstep
          cases q with
          | none =>
              have hasks : (Call.resize (some p) size).Asks := hsize
              have hsame := (step_denied hasks hstep rfl).2.region
              rw [Heap.usableSize, Heap.usableSize, hsame]
          | some q =>
              have hm := hmoved q rfl
              rw [hm.pointers] at hp'
              rcases List.mem_cons.1 hp' with rfl | hleft
              · exact absurd hp hm.fresh
              · exact absurd hleft (pointers_nodup hk).not_mem_erase
    | write x start bytes =>
        obtain rfl : x = p := Option.some.inj htarget
        exact usableSize_write hk hstep hp
    | _ => cases htarget

theorem mem_keep {live : List (Nat × Nat)} {q : Option Nat} {n : Nat}
    (h : (p, size) ∈ keep live q n) : (p, size) ∈ live ∨ (q = some p ∧ n = size) := by
  cases q with
  | none => exact .inl h
  | some x =>
      rcases List.mem_cons.1 h with heq | hmem
      · cases heq
        exact .inr ⟨rfl, rfl⟩
      · exact .inl hmem

/-- A pointer is live with a size because it was before, or because the call returned it for a
request of that size. -/
theorem mem_live_step (hstep : c.step call = .ok (d, answer)) (h : (p, size) ∈ d.live) :
    (p, size) ∈ c.live ∨ (answer = .pointer (some p) ∧ call.request = some size) := by
  have hasked : ∀ q n, (p, size) ∈ keep c.live q n → call.request = some n →
      answer = .pointer q → (p, size) ∈ c.live ∨ (answer = .pointer (some p)
        ∧ call.request = some size) := by
    intro q n hmem hrequest hanswer
    rcases mem_keep hmem with hold | ⟨rfl, rfl⟩
    · exact .inl hold
    · exact .inr ⟨hanswer, hrequest⟩
  rw [live_step hstep] at h
  cases call with
  | free x => exact .inl (List.mem_filter.1 h).1
  | write x start bytes => exact .inl h
  | resize x n =>
      cases answer with
      | pointer q =>
          rcases mem_keep h with hold | ⟨rfl, rfl⟩
          · split at hold
            case isTrue => exact .inl (List.mem_filter.1 hold).1
            case isFalse => exact .inl hold
          · exact .inr ⟨rfl, rfl⟩
      | _ => exact .inl h
  | _ =>
      cases answer with
      | pointer q => exact hasked q _ h rfl rfl
      | _ => exact .inl h

/-- A pointer that is live was returned for a request of its size, and has been live since. -/
theorem Reaches.obtained (hc : Reaches source config c) (hp : (p, size) ∈ c.live) :
    ∃ need room, blockFor size = some need ∧ Obtained source config p size need room c := by
  induction hc with
  | start => cases hp
  | @step c d call answer reached allowed done ih =>
      rcases reached.keeps with ⟨es, hk⟩
      have hlive : p ∈ d.pointers := List.mem_map.2 ⟨_, hp, rfl⟩
      rcases mem_live_step done hp with hold | ⟨rfl, hrequest⟩
      · -- its history is one call longer
        rcases ih hold with
          ⟨need, room, hneed, b, e, call', g, s, k, hb, hallows, hasks, hgrant, hkept, hrest⟩
        exact ⟨need, room, hneed, b, e, call', g, s, k, hb, hallows, hasks, hgrant,
          .step hkept allowed done hlive, hrest⟩
      · -- its history begins with this call
        rcases hk.settled with ⟨lists, hs⟩
        rcases step_apportions hs hk allowed done with
          ⟨size', need, g, s, k, n, hasks, hneed, hcut, haudit, hmem, hfree, haddr, -⟩
        cases hasks.symm.trans hrequest
        exact ⟨need, k.tag.size, hneed, c, d, call, g, s, k, reached, allowed, hasks, done,
          .here hlive, hcut, haudit, hmem, hfree, haddr, rfl⟩

/-- While a pointer stays live its block keeps its size. -/
theorem Retains.usableSize_eq (hc : Reaches source config c) (h : c.Retains p d) :
    Reaches source config d ∧ p ∈ d.pointers ∧ d.heap.usableSize p = c.heap.usableSize p := by
  induction h with
  | here live => exact ⟨hc, live, rfl⟩
  | @step d e call answer kept allowed done live ih =>
      rcases ih with ⟨reached, hp, hsize⟩
      rcases reached.keeps with ⟨es, hk⟩
      exact ⟨.step reached allowed done, live,
        (usableSize_step hk allowed done hp live).trans hsize⟩

/-- By every history of a live pointer its block has the size that the request needed, or eight
bytes more if the free block that served it had so many. -/
theorem Obtained.apportions {need room : Nat} (h : Obtained source config p size need room c)
    (hneed : blockFor size = some need) :
    ∃ n, c.heap.usableSize p = .ok n ∧ (n + 4 = need ∨ n + 4 = need + 8)
      ∧ need ≤ room ∧ (n + 4 = need + 8 ↔ room = need + 8) := by
  rcases h with ⟨a, d, call, g, s, b, reached, allowed, hrequest, hgrant, hkept, hcut, haudit, hb,
    -, haddr, rfl⟩
  rcases reached.keeps with ⟨es, hk⟩
  rcases hk.settled with ⟨lists, hs⟩
  rcases step_apportions hs hk allowed hgrant with
    ⟨size', need', g', s', b', n, hrequest', hneed', hcut', haudit', hb', -, haddr', hfit, husable,
      hsize, hlarger⟩
  cases hrequest.symm.trans hrequest'
  cases hneed.symm.trans hneed'
  -- the request, the heap that served it and the audit of that heap leave one block only
  obtain rfl := hcut.unique hcut'
  cases haudit.symm.trans haudit'
  have htag : b.tag = b'.tag := by
    rw [(Heap.walk_of_audit haudit).tag_eq hb, (Heap.walk_of_audit haudit).tag_eq hb', haddr,
      haddr']
  have hreached : Reaches source config d := .step reached allowed hgrant
  rcases hkept.usableSize_eq hreached with ⟨-, -, hkeeps⟩
  rw [htag]
  exact ⟨n, hkeeps.trans husable, hsize, hfit, hlarger⟩

/-- In every state that a client reaches, the block of a live pointer has the size that its request
needed, or eight bytes more. There is a history of the pointer, and by each it has eight bytes more
exactly if the free block that it was cut from had so many. -/
theorem Reaches.apportioned (hc : Reaches source config c) (hp : (p, size) ∈ c.live) :
    ∃ need n, blockFor size = some need ∧ c.heap.usableSize p = .ok n
      ∧ (n + 4 = need ∨ n + 4 = need + 8)
      ∧ (∃ room, Obtained source config p size need room c)
      ∧ ∀ room, Obtained source config p size need room c →
        need ≤ room ∧ (n + 4 = need + 8 ↔ room = need + 8) := by
  rcases hc.obtained hp with ⟨need, room, hneed, hobtained⟩
  rcases hobtained.apportions hneed with ⟨n, husable, hsize, -⟩
  refine ⟨need, n, hneed, husable, hsize, ⟨room, hobtained⟩, ?_⟩
  intro room' hobtained'
  rcases hobtained'.apportions hneed with ⟨n', husable', -, hfit, hlarger⟩
  cases husable.symm.trans husable'
  exact ⟨hfit, hlarger⟩

/-- A block of 24 bytes is handed out for a request that needs sixteen, next to one of sixteen. -/
theorem apportioned_with_spare :
    ∃ c, Reaches (.buffer 4096) ⟨64, 64⟩ c ∧ c.live = [(128, 12), (152, 12)]
      ∧ blockFor 12 = some 16 ∧ c.heap.usableSize 128 = .ok 20 ∧ c.heap.usableSize 152 = .ok 12
      ∧ Obtained (.buffer 4096) ⟨64, 64⟩ 128 12 16 24 c
      ∧ ∀ room, Obtained (.buffer 4096) ⟨64, 64⟩ 128 12 16 room c → room = 24 := by
  have hrun : (runFrom (.buffer 4096) ⟨64, 64⟩ [.allocate 20, .allocate 12, .free (some 128),
      .allocate 12]).map (fun c => (c.live, (c.heap.usableSize 128).toOption,
        (c.heap.usableSize 152).toOption)) = some ([(128, 12), (152, 12)], some 20, some 12) := by
    decide +kernel
  rcases Option.map_eq_some_iff.1 hrun with ⟨c, hrun, hc⟩
  have hreach := reaches_iff.2 ⟨_, hrun⟩
  rcases Prod.mk.inj hc with ⟨hlive, hc⟩
  rcases Prod.mk.inj hc with ⟨hspare, hexact⟩
  have hspare := Fault.toOption_eq_some.1 hspare
  have hblock : blockFor 12 = some 16 := by decide
  have hp : (128, 12) ∈ c.live := by
    rw [hlive]
    decide
  rcases hreach.apportioned hp with ⟨need, n, hneed, husable, -, ⟨room, hobtained⟩, hevery⟩
  cases hblock.symm.trans hneed
  cases hspare.symm.trans husable
  have hroom : ∀ room, Obtained (.buffer 4096) ⟨64, 64⟩ 128 12 16 room c → room = 24 :=
    fun room h => (hevery room h).2.1 rfl
  obtain rfl := hroom room hobtained
  exact ⟨c, hreach, hlive, hblock, hspare, Fault.toOption_eq_some.1 hexact, hobtained, hroom⟩

end Client

end BoundaryTag
