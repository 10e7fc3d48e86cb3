import BoundaryTag.Client.Pair
import BoundaryTag.Proofs.EmptyReports
import BoundaryTag.Proofs.Refinement

/-!
# PayloadsUnseen — payloads have no part in a heap

What clients write into their payloads shows nowhere else, neither in what calls return nor in any
header, footer or link.

* `Heap.surveyOf_eq`: the plan of a neat heap tells all that an audit sees.
* `Client.OnPlan` says that a heap is neat and holds a plan, with all blocks in use live.
* `Twins` are two clients on the same plan with the same live pointers. They stay so in a call
  (`Twins.step`) and when one of them writes (`Twins.write_left`, `Twins.write_right`).
* `Client.payloads_unseen`: two clients that make the same calls see the same, whatever they write.
-/

namespace BoundaryTag

open Extent

/-! ## What an audit sees -/

namespace Region

variable {r s : Region} {bp lo x : Nat} {p : Bool} {es : List Extent} {lists : Nat → List Nat}

/-- Plain headers are known from the extents. -/
theorem Chained.tagAt_eq (h : r.Chained bp p es) (h' : s.Chained bp p es)
    (hr : ∀ y ∈ heads bp es, (r.tagAt y).Plain) (hs : ∀ y ∈ heads bp es, (s.tagAt y).Plain)
    (hx : x ∈ heads bp es) : s.tagAt x = r.tagAt x := by
  induction es generalizing bp p with
  | nil =>
      have hend : r.Ended bp p := h.ended
      have hend' : s.Ended bp p := h'.ended
      obtain rfl := mem_heads_nil.1 hx
      exact (hs x hx).eq (hr x hx) (hend'.size.trans hend.size.symm)
        (hend'.allocated.trans hend.allocated.symm) (hend'.prevFree.trans hend.prevFree.symm)
  | cons e es ih =>
      rcases mem_heads_cons.1 hx with rfl | htail
      · have he := h.tagged.1
        have he' := h'.tagged.1
        exact (hs x hx).eq (hr x hx) (he'.size.trans he.size.symm)
          (he'.allocated.trans he.allocated.symm) (he'.prevFree.trans he.prevFree.symm)
      · exact ih h.tail h'.tail (fun y hy => hr y (mem_heads_cons.2 (.inr hy)))
          (fun y hy => hs y (mem_heads_cons.2 (.inr hy))) htail

/-- A block of a plan looks the same wherever its header is. -/
theorem Chained.blockAt_eq {e : Extent} (h : r.Chained bp p es) (h' : s.Chained bp p es)
    (hx : (x, e) ∈ located bp es) (htag : s.tagAt x = r.tagAt x) : s.blockAt x = r.blockAt x := by
  rcases h.tagged.at hx with ⟨q, ht⟩
  rcases h'.tagged.at hx with ⟨q', ht'⟩
  rw [blockAt, blockAt, htag]
  split
  case isTrue => rfl
  case isFalse ha =>
    have hfree : e.allocated = false := by
      rw [← ht.allocated]
      exact Bool.eq_false_iff.2 ha
    rw [ht.size, ht.footer hfree, ht'.footer hfree, htag]

/-- A link back is known from the lists. -/
theorem linkAt_eq {l : FreeLists} {k : Nat} (h : l.Represents r lists) (h' : l.Represents s lists)
    (hk : k < SizeClass.count) (hx : x ∈ lists k) : l.links.linkAt s x = l.links.linkAt r x := by
  rcases List.append_of_mem hx with ⟨l₁, l₂, hsplit⟩
  have hstrung := h.strung k hk
  have hstrung' := h'.strung k hk
  rw [hsplit] at hstrung hstrung'
  rw [(FreeLists.Strung.append hstrung).1, (FreeLists.Strung.append hstrung').1]

end Region

namespace Heap

variable {h k : Heap} {es : List Extent} {lists : Nat → List Nat}

/-- The plan of a neat heap tells all that an audit sees. -/
theorem surveyOf_eq (hlo : k.lo = h.lo) (hs : h.region.Settled h.lo es lists)
    (hs' : k.region.Settled h.lo es lists) (hneat : h.region.Neat h.lo)
    (hneat' : k.region.Neat h.lo) : k.surveyOf es lists = h.surveyOf es lists := by
  have hc := hs.drawn.chained
  have hc' := hs'.drawn.chained
  rcases hc.neat_iff.1 hneat with ⟨hpro, hplain⟩
  rcases hc'.neat_iff.1 hneat' with ⟨hpro', hplain'⟩
  -- plain headers that say the same are the same words
  have htag : ∀ x ∈ heads (h.lo + frameSize) es, k.region.tagAt x = h.region.tagAt x :=
    fun x hx => hc.tagAt_eq hc' hplain hplain' hx
  have hprologue : k.region.tagAt (h.lo + 8) = h.region.tagAt (h.lo + 8) := hpro'.trans hpro.symm
  have hsize : k.region.size = h.region.size := hc'.stop_eq.symm.trans hc.stop_eq
  have hend : k.region.tagAt h.region.size = h.region.tagAt h.region.size :=
    htag _ (mem_heads.2 (.inr hc.stop_eq.symm))
  have hblocks : k.region.blocksAt (h.lo + frameSize) es
      = h.region.blocksAt (h.lo + frameSize) es := by
    refine List.map_congr_left fun q hq => ?_
    exact hc.blockAt_eq hc' hq (htag _ (mem_heads.2 (.inl ⟨_, hq⟩)))
  have hthreads : ∀ j ∈ List.range SizeClass.count,
      (FreeLists.at h.lo).threadAt k.region lists j
        = (FreeLists.at h.lo).threadAt h.region lists j := by
    intro j hj
    have hnodes : (lists j).map ((FreeLists.at h.lo).nodeAt k.region)
        = (lists j).map ((FreeLists.at h.lo).nodeAt h.region) := by
      refine List.map_congr_left fun x hx => ?_
      rcases hs.listed.located hx with ⟨n, hn, -, -⟩
      rw [FreeLists.nodeAt, FreeLists.nodeAt, htag x (mem_heads.2 (.inl ⟨_, hn⟩)),
        Region.linkAt_eq hs.drawn.lists hs'.drawn.lists (List.mem_range.1 hj) hx]
    rw [FreeLists.threadAt, FreeLists.threadAt, hnodes]
  have hlists : k.lists = h.lists := by rw [Heap.lists, Heap.lists, prologue, prologue, hlo]
  rw [surveyOf, surveyOf, prologue, prologue, hlists, hlo, hsize, hend, hblocks, hprologue,
    hs.drawn.footer, hs'.drawn.footer, hprologue]
  exact congrArg _ (List.map_congr_left hthreads)

end Heap

/-! ## One client -/

namespace Client

variable {c c' d d' : Client} {p q : Plan} {call call' : Call} {answer : Answer}
  {calls calls' : List Call}

/-- The heap of a client is neat and holds the plan `p`, and all blocks in use are live. -/
structure OnPlan (c : Client) (p : Plan) : Prop where
  lo : p.lo = c.heap.lo
  settled : c.heap.region.Settled c.heap.lo p.extents p.lists
  keeps : c.Keeps p.extents
  neat : c.heap.region.Neat c.heap.lo

/-- A call comes through as the plan says. -/
theorem OnPlan.step (h : c.OnPlan p) (ha : c.Allows call) :
    ∃ d answer q events, c.step call = .ok (d, answer)
      ∧ p.step c.heap.config c.heap.admits call = (q, answer, events) ∧ d.OnPlan q
      ∧ d.heap.config = c.heap.config ∧ d.heap.admits = c.heap.admits
      ∧ d.heap.events = c.heap.events ++ events := by
  rcases step_follows h.settled h.keeps ha with
    ⟨d, answer, q, events, hstep, hplan, hf, hk, -⟩
  have hp : c.heap.planOf p.extents p.lists = p := by rw [Heap.planOf, ← h.lo]
  rw [hp] at hplan
  exact ⟨d, answer, q, events, hstep, hplan,
    ⟨hf.start.trans hf.lo.symm, hf.lo.symm ▸ hf.settled, hk, hf.lo.symm ▸ hf.neat h.neat⟩,
    hf.config, hf.admits, hf.events⟩

theorem OnPlan.audit_eq (h : c.OnPlan p) :
    c.heap.audit = .ok (.survey (c.heap.surveyOf p.extents p.lists)) := Heap.audit_eq h.settled

/-! ## Two clients -/

structure Twins (c d : Client) (p : Plan) : Prop where
  left : c.OnPlan p
  right : d.OnPlan p
  live : d.live = c.live
  config : d.heap.config = c.heap.config
  admits : d.heap.admits = c.heap.admits
  events : d.heap.events = c.heap.events

namespace Twins

theorem symm (h : Twins c d p) : Twins d c p :=
  ⟨h.right, h.left, h.live.symm, h.config.symm, h.admits.symm, h.events.symm⟩

/-- An audit sees the same. -/
theorem audit_eq (h : Twins c d p) : d.heap.audit = c.heap.audit := by
  have hlo : d.heap.lo = c.heap.lo := h.right.lo.symm.trans h.left.lo
  rw [h.left.audit_eq, h.right.audit_eq,
    Heap.surveyOf_eq hlo h.left.settled (hlo ▸ h.right.settled) h.left.neat (hlo ▸ h.right.neat)]

/-- The same call returns the same, and the clients stay twins. -/
theorem step (h : Twins c d p) (hc : c.Allows call) (hd : d.Allows call) :
    ∃ c' d' answer q, c.step call = .ok (c', answer) ∧ d.step call = .ok (d', answer)
      ∧ Twins c' d' q := by
  rcases h.left.step hc with
    ⟨c', answer, q, events, hstep, hplan, hq, hconfig, hadmits, hevents⟩
  rcases h.right.step hd with
    ⟨d', answer', q', events', hstep', hplan', hq', hconfig', hadmits', hevents'⟩
  rw [h.config, h.admits] at hplan'
  cases hplan.symm.trans hplan'
  refine ⟨c', d', answer, q, hstep, hstep', hq, hq', ?_, ?_, ?_, ?_⟩
  · rw [live_step hstep, live_step hstep', h.live]
  · rw [hconfig, hconfig', h.config]
  · rw [hadmits, hadmits', h.admits]
  · rw [hevents, hevents', h.events]

/-- One client writes, and the other does not see it. -/
theorem write_left {a start : Nat} {bytes : ByteArray} (h : Twins c d p)
    (hc : c.Allows (.write a start bytes)) :
    ∃ c', c.step (.write a start bytes) = .ok (c', .done) ∧ Twins c' d p := by
  rcases h.left.step hc with
    ⟨c', answer, q, events, hstep, hplan, hq, hconfig, hadmits, hevents⟩
  cases hplan
  refine ⟨c', hstep, hq, h.right, ?_, h.config.trans hconfig.symm, h.admits.trans hadmits.symm, ?_⟩
  · rw [live_step hstep]
    exact h.live
  · rw [hevents, List.append_nil, h.events]

theorem write_right {a start : Nat} {bytes : ByteArray} (h : Twins c d p)
    (hd : d.Allows (.write a start bytes)) :
    ∃ d', d.step (.write a start bytes) = .ok (d', .done) ∧ Twins c d' p := by
  rcases h.symm.write_left hd with ⟨d', hstep, htwins⟩
  exact ⟨d', hstep, htwins.symm⟩

theorem samePlace {a b : Option Nat} (h : Twins c d p) (hab : c.SamePlace d a b) : b = a := by
  cases a with
  | none =>
      cases b with
      | none => rfl
      | some b => cases hab
  | some a =>
      cases b with
      | none => cases hab
      | some b =>
          rcases hab with ⟨i, ha, hb⟩
          rw [pointers, h.live] at hb
          exact hb.symm.trans ha

theorem alike (h : Twins c d p) (hcall : c.Alike d call call') : call' = call := by
  cases hcall with
  | allocate size => rfl
  | tryAllocate size => rfl
  | allocateZeroed count size => rfl
  | free same => rw [h.samePlace same]
  | resize size same => rw [h.samePlace same]

end Twins

/-! ## Runs -/

theorem Alike.not_write (h : c.Alike d call call') : call.isWrite = false := by
  cases h <;> rfl

/-- Nothing is seen of a write. -/
theorem watch_write {a start : Nat} {bytes : ByteArray} {audit : Audit} {e : Client}
    {sights : List Sight} (hstep : c.step (.write a start bytes) = .ok (c', answer))
    (haudit : c'.heap.audit = .ok audit) (hwatch : c'.watch calls = .ok (e, sights)) :
    c.watch (.write a start bytes :: calls) = .ok (e, sights) := by
  rw [watch, hstep, Fault.ok_bind]
  simp only
  rw [haudit, Fault.ok_bind, hwatch, Fault.ok_bind]
  rfl

theorem watch_call {audit : Audit} {e : Client} {sights : List Sight}
    (hwrite : call.isWrite = false) (hstep : c.step call = .ok (c', answer))
    (haudit : c'.heap.audit = .ok audit) (hwatch : c'.watch calls = .ok (e, sights)) :
    c.watch (call :: calls) = .ok (e, ⟨answer, c'.heap.events, audit⟩ :: sights) := by
  rw [watch, hstep, Fault.ok_bind]
  simp only
  rw [haudit, Fault.ok_bind, hwatch, Fault.ok_bind, hwrite]
  rfl

/-- A run is the same when it is watched. -/
theorem perform_of_watch {e : Client} {sights : List Sight} (h : c.watch calls = .ok (e, sights)) :
    ∃ answers, c.perform calls = .ok (e, answers) := by
  induction calls generalizing c sights with
  | nil =>
      cases h
      exact ⟨[], rfl⟩
  | cons call calls ih =>
      rcases Fault.bind_eq_ok.1 h with ⟨⟨d, answer⟩, hstep, h⟩
      rcases Fault.bind_eq_ok.1 h with ⟨audit, -, h⟩
      rcases Fault.bind_eq_ok.1 h with ⟨⟨e', sights'⟩, hwatch, h⟩
      cases h
      rcases ih hwatch with ⟨answers, hperform⟩
      exact ⟨answer :: answers, perform_cons hstep hperform⟩

/-- Two clients on the same plan that make the same calls see the same, and are on the same plan in
the end. -/
theorem Paired.watch (hpaired : Paired c d calls calls') (h : Twins c d p) (hc : c.Plays calls)
    (hd : d.Plays calls') :
    ∃ c' d' sights q, c.watch calls = .ok (c', sights) ∧ d.watch calls' = .ok (d', sights)
      ∧ Twins c' d' q := by
  induction hpaired generalizing p with
  | @done c d => exact ⟨c, d, [], p, rfl, rfl, h⟩
  | left rest ih =>
      rcases hc with ⟨hallows, hplays⟩
      rcases h.write_left hallows with ⟨c₁, hstep, h₁⟩
      rcases ih c₁ .done hstep h₁ (hplays c₁ .done hstep) hd with
        ⟨c', d', sights, q, hwatch, hwatch', h'⟩
      exact ⟨c', d', sights, q, watch_write hstep h₁.left.audit_eq hwatch, hwatch', h'⟩
  | right rest ih =>
      rcases hd with ⟨hallows, hplays⟩
      rcases h.write_right hallows with ⟨d₁, hstep, h₁⟩
      rcases ih d₁ .done hstep h₁ hc (hplays d₁ .done hstep) with
        ⟨c', d', sights, q, hwatch, hwatch', h'⟩
      exact ⟨c', d', sights, q, hwatch, watch_write hstep h₁.right.audit_eq hwatch', h'⟩
  | both alike rest ih =>
      rcases hc with ⟨hallows, hplays⟩
      rcases hd with ⟨hallows', hplays'⟩
      obtain rfl := h.alike alike
      rcases h.step hallows hallows' with ⟨c₁, d₁, answer, q₁, hstep, hstep', h₁⟩
      rcases ih c₁ d₁ answer answer hstep hstep' h₁ (hplays c₁ answer hstep)
        (hplays' d₁ answer hstep') with ⟨c', d', sights, q, hwatch, hwatch', h'⟩
      have hseen := watch_call alike.not_write hstep' (h₁.audit_eq.trans h₁.left.audit_eq) hwatch'
      rw [h₁.events] at hseen
      exact ⟨c', d', _, q, watch_call alike.not_write hstep h₁.left.audit_eq hwatch, hseen, h'⟩

/-- A client may pass the pointer that the other one passes. -/
theorem Twins.samePlace_self {a : Option Nat} (h : Twins c d p) (ha : c.Owns a) :
    c.SamePlace d a a := by
  cases a with
  | none => trivial
  | some a =>
      rcases List.mem_iff_getElem?.1 (ha a rfl) with ⟨i, hi⟩
      refine ⟨i, hi, ?_⟩
      rw [pointers, h.live]
      exact hi

theorem Twins.alike_self (h : Twins c d p) (hc : c.Allows call) (hwrite : call.isWrite = false) :
    c.Alike d call call := by
  cases call with
  | allocate size => exact .allocate size
  | tryAllocate size => exact .tryAllocate size
  | allocateZeroed count size => exact .allocateZeroed count size
  | free a => exact .free (h.samePlace_self hc)
  | resize a size => exact .resize size (h.samePlace_self hc)
  | write a start bytes => cases hwrite

/-- The second client may write first. -/
theorem Twins.writes_first (h : Twins c d p) (hd : d.Plays calls')
    (hrest : ∀ e rest, Twins c e p → e.Plays rest → (∀ call ∈ rest.head?, call.isWrite = false) →
      rest.filter (!·.isWrite) = calls'.filter (!·.isWrite) → Paired c e calls rest) :
    Paired c d calls calls' := by
  induction calls' generalizing d with
  | nil => exact hrest d [] h hd nofun rfl
  | cons call calls' ih =>
      by_cases hwrite : call.isWrite = true
      · cases call with
        | write a start bytes =>
            rcases hd with ⟨hallows, hplays⟩
            rcases h.write_right hallows with ⟨d', hstep, h'⟩
            refine .right fun e answer hstep' => ?_
            cases hstep.symm.trans hstep'
            exact ih h' (hplays d' .done hstep) hrest
        | _ => cases hwrite
      · refine hrest d _ h hd (fun call' hcall => ?_) rfl
        cases hcall
        exact Bool.eq_false_iff.2 hwrite

/-- Calls that are the same when writes are left out are paired. -/
theorem Twins.paired (h : Twins c d p) (hc : c.Plays calls) (hd : d.Plays calls')
    (hsame : calls'.filter (!·.isWrite) = calls.filter (!·.isWrite)) :
    Paired c d calls calls' := by
  induction calls generalizing c d p calls' with
  | nil =>
      refine h.writes_first hd fun e rest _ _ hhead hfilter => ?_
      -- whatever is left are writes of the second client
      cases rest with
      | nil => exact .done
      | cons call rest =>
          rw [hsame, List.filter_cons_of_pos (by rw [hhead call rfl]; rfl)] at hfilter
          cases hfilter
  | cons call calls ih =>
      rcases hc with ⟨hallows, hplays⟩
      -- a write of the first client is its own, and other calls wait for the second
      by_cases hwrite : call.isWrite = true
      · cases call with
        | write a start bytes =>
            rcases h.write_left hallows with ⟨c', hstep, h'⟩
            refine .left fun e answer hstep' => ?_
            cases hstep.symm.trans hstep'
            exact ih h' (hplays c' .done hstep) hd hsame
        | _ => cases hwrite
      · refine h.writes_first hd fun e rest h hrest hhead hfilter => ?_
        have hcall := Bool.eq_false_iff.2 hwrite
        rw [hsame, List.filter_cons_of_pos (by rw [hcall]; rfl)] at hfilter
        cases rest with
        | nil => cases hfilter
        | cons call' rest =>
            rw [List.filter_cons_of_pos (by rw [hhead call' rfl]; rfl)] at hfilter
            rcases List.cons.inj hfilter with ⟨rfl, htail⟩
            rcases hrest with ⟨hallows', hplays'⟩
            rcases h.step hallows hallows' with ⟨c', e', answer, q, hstep, hstep', h'⟩
            refine .both (h.alike_self hallows hcall) fun c₁ e₁ answer₁ answer₂ hc₁ he₁ => ?_
            cases hstep.symm.trans hc₁
            cases hstep'.symm.trans he₁
            exact ih h' (hplays c' answer hstep) (hplays' e' answer hstep') htail

/-! ## From the beginning -/

/-- A new heap is on the plan of one free block. -/
theorem onPlan_of_layOut {source : Source} {config : Config} {h : Heap}
    (laidOut : Heap.layOut source config = .ok (.ok h)) :
    ∃ lo n, alignUp source.region.size = some lo ∧ growthFor config.initialChunk = some n
      ∧ OnPlan ⟨h, []⟩ (Plan.fresh lo n) ∧ h.config = config
      ∧ (h.admits = fun size => decide (source.Admits size))
      ∧ h.events = [.grow source.region.size (lo - source.region.size + frameSize),
          .grow (lo + frameSize) n] := by
  rcases Heap.layOut_follows source config with
    ⟨lo, halign, ⟨e, he⟩ | ⟨k, n, hrun, hn, rfl, hconfig, hadmits, hevents, hneat, hs⟩⟩
  · cases he.symm.trans laidOut
  · cases hrun.symm.trans laidOut
    exact ⟨h.lo, n, halign, hn, ⟨rfl, hs, keeps_nil hs rfl, hneat⟩, hconfig, hadmits, hevents⟩

/-- Heaps that were laid out alike are on the same plan. -/
theorem twins_of_layOut {source source' : Source} {config : Config} {h k : Heap}
    (hkind : source'.kind = source.kind) (hlimit : source'.limit = source.limit)
    (hsize : source'.region.size = source.region.size)
    (laidOut : Heap.layOut source config = .ok (.ok h))
    (laidOut' : Heap.layOut source' config = .ok (.ok k)) : ∃ p, Twins ⟨h, []⟩ ⟨k, []⟩ p := by
  rcases onPlan_of_layOut laidOut with ⟨lo, n, halign, hn, hon, hconfig, hadmits, hevents⟩
  rcases onPlan_of_layOut laidOut' with ⟨lo', n', halign', hn', hon', hconfig', hadmits', hevents'⟩
  rw [hsize] at halign' hevents'
  cases halign.symm.trans halign'
  cases hn.symm.trans hn'
  exact ⟨Plan.fresh lo n, hon, hon', rfl, hconfig'.trans hconfig.symm,
    (hadmits'.trans (Source.admits_congr hkind hlimit)).trans hadmits.symm,
    hevents'.trans hevents.symm⟩

/-- Two clients begin with heaps that were laid out alike, and make the same calls by the rules,
each with its own pointers. Then they see the same after every call, whatever bytes they write into
their payloads: the same answers, the same events, and heaps that differ in payloads only. -/
theorem payloads_unseen {source source' : Source} {config : Config} {h k : Heap}
    (hkind : source'.kind = source.kind) (hlimit : source'.limit = source.limit)
    (hsize : source'.region.size = source.region.size)
    (laidOut : Heap.layOut source config = .ok (.ok h))
    (laidOut' : Heap.layOut source' config = .ok (.ok k))
    (hplays : Plays ⟨h, []⟩ calls) (hplays' : Plays ⟨k, []⟩ calls')
    (hpaired : Paired ⟨h, []⟩ ⟨k, []⟩ calls calls') :
    ∃ c d sights, watch ⟨h, []⟩ calls = .ok (c, sights) ∧ watch ⟨k, []⟩ calls' = .ok (d, sights)
      ∧ d.live = c.live ∧ d.heap.events = c.heap.events ∧ d.heap.audit = c.heap.audit := by
  rcases twins_of_layOut hkind hlimit hsize laidOut laidOut' with ⟨p, htwins⟩
  rcases hpaired.watch htwins hplays hplays' with ⟨c, d, sights, q, hwatch, hwatch', h'⟩
  exact ⟨c, d, sights, hwatch, hwatch', h'.live, h'.events, h'.audit_eq⟩

/-- The last word of the first payload, where a free block has its footer, is told apart by no one
but the clients. -/
theorem payloads_unseen_by_free :
    ∃ h c d sights, Heap.layOut (Source.buffer 4096) ⟨64, 64⟩ = .ok (.ok h)
      ∧ watch ⟨h, []⟩ [.allocate 12, .allocate 12, .write 128 8 ⟨#[7, 7, 7, 7]⟩, .free (some 144),
          .tryAllocate 5000] = .ok (c, sights)
      ∧ watch ⟨h, []⟩ [.allocate 12, .write 128 8 ⟨#[16, 0, 0, 0]⟩, .allocate 12, .free (some 144),
          .tryAllocate 5000] = .ok (d, sights)
      ∧ d.heap.audit = c.heap.audit
      ∧ c.heap.region.byte 136 = 7 ∧ d.heap.region.byte 136 = 16 := by
  have hrun : (runFrom (.buffer 4096) ⟨64, 64⟩ [.allocate 12, .allocate 12,
      .write 128 8 ⟨#[7, 7, 7, 7]⟩, .free (some 144), .tryAllocate 5000]).map
        (·.heap.region.byte 136) = some 7 := by
    decide +kernel
  have hrun' : (runFrom (.buffer 4096) ⟨64, 64⟩ [.allocate 12, .write 128 8 ⟨#[16, 0, 0, 0]⟩,
      .allocate 12, .free (some 144), .tryAllocate 5000]).map
        (·.heap.region.byte 136) = some 16 := by
    decide +kernel
  rcases Option.map_eq_some_iff.1 hrun with ⟨c, hc, hbyte⟩
  rcases Option.map_eq_some_iff.1 hrun' with ⟨d, hd, hbyte'⟩
  rcases runFrom_eq_some_iff.1 hc with ⟨h, hlay, hplays, answers, hperform⟩
  rcases runFrom_eq_some_iff.1 hd with ⟨h', hlay', hplays', answers', hperform'⟩
  cases hlay.symm.trans hlay'
  rcases twins_of_layOut rfl rfl rfl hlay hlay with ⟨p, htwins⟩
  rcases payloads_unseen rfl rfl rfl hlay hlay hplays hplays'
    (htwins.paired hplays hplays' rfl) with ⟨e, e', sights, hwatch, hwatch', -, -, haudit⟩
  rcases perform_of_watch hwatch with ⟨_, hsame⟩
  rcases perform_of_watch hwatch' with ⟨_, hsame'⟩
  cases hperform.symm.trans hsame
  cases hperform'.symm.trans hsame'
  exact ⟨h, c, d, sights, hlay, hwatch, hwatch', haudit, hbyte, hbyte'⟩

end Client

end BoundaryTag
