import BoundaryTag.Proofs.FreedInAnyOrder
import BoundaryTag.Proofs.Requests
import BoundaryTag.Proofs.Separation

/-!
# Resizing — what becomes of a payload that is resized

A payload that is resized moves to another block, if there is one, and the old block becomes free.
If there is none then everything stays as it was.

* `Heap.Moves.payload_copied`: the payload at the new place begins as it did at the old one.
* `Client.pointers_forget`: a pointer that is forgotten is taken from the live ones.
* `Client.Moved` says what has become of a payload, and of the others, and `Client.Released` what
  has become of its block.
* `Client.step_resize` and `Client.step_release`: the two ends of a call that resizes.
* `Client.Reaches.resized` puts them together for every state that a client reaches.
-/

namespace BoundaryTag

open Extent

/-- As far as both have room, the payload at the new place is that of the old one. -/
theorem Heap.Moves.payload_copied {h h' : Heap} {es es' : List Extent}
    {lists lists' : Nat → List Nat} {old k size new : Nat} (hm : h.Moves es old k size h' es' new)
    (hlo : h'.lo = h.lo)
    (hs : h.region.Settled h.lo es lists) (hs' : h'.region.Settled h'.lo es' lists')
    (hold : (old, k) ∈ h.used es) :
    ∃ m bytes bytes', h.usableSize old = .ok (k - 4) ∧ h'.usableSize new = .ok m ∧ size ≤ m
      ∧ h.payload old = .ok bytes ∧ h'.payload new = .ok bytes' ∧ min (k - 4) size ≤ bytes'.size
      ∧ bytes'.extract 0 (min (k - 4) size) = bytes.extract 0 (min (k - 4) size) := by
  rcases hm.used with ⟨m, hroom, hperm⟩
  have hnew : (new, m) ∈ h'.used es' := by
    rw [Heap.used, hlo]
    exact hperm.mem_iff.2 List.mem_cons_self
  rcases Heap.used_spec hs hold with ⟨-, hbelow, -, h16, husable, -⟩
  rcases Heap.used_spec hs' hnew with ⟨-, hbelow', -, h16', husable', -⟩
  refine ⟨m - 4, _, _, husable, husable', by omega, Heap.payload_eq hs hold,
    Heap.payload_eq hs' hnew, ?_, ?_⟩
  · rw [Region.size_slice (by omega)]
    omega
  · rw [Region.extract_slice (by omega), Region.extract_slice (by omega)]
    exact Region.slice_eq_slice (by omega) (by omega) hm.copied

namespace Client

variable {source : Source} {config : Config} {c d : Client} {es es' : List Extent}
  {lists : Nat → List Nat} {p q size : Nat}

theorem pointers_forget (hnd : c.pointers.Nodup) :
    (forget c.live (some p)).map Prod.fst = c.pointers.erase p := by
  rw [map_fst_forget, hnd.erase_eq_filter]
  refine List.filter_congr fun x _ => ?_
  by_cases hx : x = p
  · simp [hx]
  · simp [hx]

/-- The block of the pointer `p` has become a free block, or a part of one, and the blocks in use
are those of the pointers that are live now. -/
def Released (c : Client) (p : Nat) (d : Client) : Prop :=
  ∃ n s, c.heap.usableSize p = .ok n ∧ d.heap.audit = .ok (.survey s)
    ∧ d.pointers.Perm s.chain.usedBlocks
    ∧ ∃ b ∈ s.chain.blocks, b.isFree = true ∧ b.addr ≤ p ∧ p + (n + 4) ≤ b.addr + b.tag.size

/-- The payload of the pointer `p` has moved to `q`, which has room for `size` bytes. -/
structure Moved (c : Client) (p size : Nat) (d : Client) (q : Nat) : Prop where
  fresh : q ∉ c.pointers
  pointers : d.pointers = q :: c.pointers.erase p
  room : ∃ n, d.heap.usableSize q = .ok n ∧ size ≤ n
  copied : ∃ n bytes bytes', c.heap.usableSize p = .ok n ∧ c.heap.payload p = .ok bytes
    ∧ d.heap.payload q = .ok bytes' ∧ min n size ≤ bytes'.size
    ∧ bytes'.extract 0 (min n size) = bytes.extract 0 (min n size)
  others : ∀ a ∈ c.pointers, a ≠ p → ∃ n bytes, a ∈ d.pointers ∧ c.heap.usableSize a = .ok n
    ∧ c.heap.payload a = .ok bytes ∧ bytes.size = n ∧ d.heap.usableSize a = .ok n
    ∧ d.heap.payload a = .ok bytes
  released : c.Released p d

theorem released_of_located {k x n : Nat} (hs : c.heap.region.Settled c.heap.lo es lists)
    (hp : (p, k) ∈ c.heap.used es) (hk' : d.Keeps es')
    (hx : (x, ⟨n, false⟩) ∈ located (d.heap.lo + frameSize) es') (hxp : x ≤ p)
    (hpx : p + k ≤ x + n) : c.Released p d := by
  rcases hk'.settled with ⟨lists', hs'⟩
  rcases Heap.used_spec hs hp with ⟨-, -, -, h16, husable, -⟩
  rcases hs'.drawn.tagsAt hx with ⟨b, ht⟩
  have hsize : (d.heap.region.tagAt x).size = n := ht.size
  refine ⟨k - 4, _, husable, Heap.audit_eq hs', Heap.usedBlocks_surveyOf hs' ▸ hk'.live.perm,
    d.heap.region.blockAt x, List.mem_map.2 ⟨_, hx, rfl⟩, ?_, hxp, ?_⟩
  · rw [Region.isFree_blockAt, ht.allocated]
    rfl
  · rw [Region.addr_blockAt, Region.tag_blockAt, hsize]
    omega

/-- A live pointer is resized: its payload moves to another block, if there is one. -/
theorem step_resize (hk : c.Keeps es) (hp : p ∈ c.pointers) (hsize : size ≠ 0) :
    ∃ d answer, c.step (.resize (some p) size) = .ok (d, .pointer answer)
      ∧ ∀ q, answer = some q → c.Moved p size d q := by
  have hallows : c.Allows (.resize (some p) size) := owns_of_mem hp
  rcases hk.settled with ⟨lists, hs⟩
  rcases exists_used hk hp with ⟨k, hold⟩
  rcases Heap.resize_used_follows hs hold hsize with
    ⟨h', plan, answer, events, hrun, hplan, hf, -, -, hmoves⟩
  rcases step_follows hs hk hallows with
    ⟨d, answer', plan', events', hstep, hplan', -, hk', hspares⟩
  rw [Plan.step, hplan] at hplan'
  cases hplan'
  have hd : c.step (.resize (some p) size) = .ok (⟨h', keep (if size = 0 ∨ answer.isSome then
      forget c.live (some p) else c.live) answer size⟩, .pointer answer) := by
    rw [step, hrun, Fault.ok_bind]
    rfl
  cases hstep.symm.trans hd
  refine ⟨_, answer, hd, fun q hq => ?_⟩
  subst hq
  have hm := hmoves q rfl
  have hs' : h'.region.Settled h'.lo plan.extents plan.lists := hf.lo.symm ▸ hf.settled
  rcases hm.payload_copied hf.lo hs hs' hold with
    ⟨m, bytes, bytes', husable, husable', hroom, hbytes, hbytes', hlong, hcopied⟩
  rcases hm.free with ⟨x, n, hx, hxp, hpx⟩
  refine ⟨fun hmem => hm.fresh (hk.live.perm.mem_iff.1 hmem), ?_, ⟨m, husable', hroom⟩,
    ⟨k - 4, bytes, bytes', husable, hbytes, hbytes', hlong, hcopied⟩, fun a ha hne => ?_, ?_⟩
  · have hmoved : (if size = 0 ∨ (some q).isSome then forget c.live (some p) else c.live)
        = forget c.live (some p) := if_pos (.inr rfl)
    rw [pointers, hmoved, ← pointers_forget (pointers_nodup hk)]
    rfl
  · -- the call is about no other pointer
    have htarget : (Call.resize (some p) size).target ≠ some a :=
      fun heq => hne (Option.some.inj heq).symm
    exact hspares.payload_kept hk hk' ha htarget
  · exact released_of_located hs hold hk' (hf.lo.symm ▸ hx) hxp hpx

theorem step_resize_zero {p : Option Nat} {answer : Answer}
    (hstep : c.step (.free p) = .ok (d, answer)) :
    c.step (.resize p 0) = .ok (d, .pointer none) := by
  rcases Fault.bind_eq_ok.1 hstep with ⟨h, hfree, hd⟩
  cases hd
  have hresize : c.heap.resize p 0 = .ok (h, none) := by
    unfold Heap.resize
    rw [if_pos rfl, hfree]
    rfl
  rw [step, hresize, Fault.ok_bind]
  rfl

/-- To resize a live pointer to no bytes is to free it. -/
theorem step_release (hk : c.Keeps es) (hp : p ∈ c.pointers) :
    ∃ d, c.step (.free (some p)) = .ok (d, .done)
      ∧ c.step (.resize (some p) 0) = .ok (d, .pointer none)
      ∧ d.pointers = c.pointers.erase p ∧ c.Released p d := by
  rcases hk.settled with ⟨lists, hs⟩
  rcases exists_used hk hp with ⟨k, hold⟩
  rcases free_step hk hp with ⟨d, hstep, hlo, hlive, hk'⟩
  have hgap := Plan.exists_free (p := c.heap.planOf es lists) hs.large hs.tidy (mem_inUse.1 hold)
  have hextents : ((c.heap.planOf es lists).free p).1.extents
      = merge (vacate [p] (c.heap.lo + frameSize) es) :=
    Plan.extents_free hs.tidy hs.large (mem_inUse.1 hold)
  rw [hextents] at hgap
  rcases hgap with ⟨x, n, hx, hxp, hpx⟩
  refine ⟨d, hstep, step_resize_zero hstep, ?_,
    released_of_located hs hold hk' (hlo.symm ▸ hx) hxp hpx⟩
  rw [pointers, hlive]
  exact pointers_forget (pointers_nodup hk)

/-- In every state that a client reaches, resizing a live pointer comes through. Either the payload
moves to a new block, with as many of its first bytes as both have room for, and the old block
becomes free, while all other payloads stay; or there is no new block, and then nothing has changed.
To resize to no bytes is to free. -/
theorem Reaches.resized (hc : Reaches source config c) (hp : p ∈ c.pointers) :
    c.pointers.Nodup
      ∧ (∀ size, 0 < size → ∃ d answer, c.step (.resize (some p) size) = .ok (d, .pointer answer)
          ∧ (∀ q, answer = some q → c.Moved p size d q)
          ∧ (answer = none → d.live = c.live ∧ c.heap.Unmoved d.heap))
      ∧ ∃ d, c.step (.free (some p)) = .ok (d, .done)
        ∧ c.step (.resize (some p) 0) = .ok (d, .pointer none)
        ∧ d.pointers = c.pointers.erase p ∧ c.Released p d := by
  rcases hc.keeps with ⟨es, hk⟩
  refine ⟨pointers_nodup hk, fun size hpos => ?_, step_release hk hp⟩
  have hsize : size ≠ 0 := Nat.ne_of_gt hpos
  have hasks : (Call.resize (some p) size).Asks := hsize
  rcases step_resize hk hp hsize with ⟨d, answer, hstep, hmoved⟩
  exact ⟨d, answer, hstep, hmoved, fun hnone => step_denied hasks hstep hnone⟩

/-- A block between two others that is resized to more than there is room for, to less, and to
nothing. -/
theorem resized_in_small_buffer :
    ∃ c, Reaches (.buffer 256) ⟨64, 64⟩ c ∧ c.live = [(160, 12), (144, 12)] ∧ 144 ∈ c.pointers
      ∧ (∃ d, c.step (.resize (some 144) 40) = .ok (d, .pointer (some 176)) ∧ c.Moved 144 40 d 176)
      ∧ (∃ d, c.step (.resize (some 144) 1000) = .ok (d, .pointer none)
          ∧ d.live = [(160, 12), (144, 12)] ∧ d.heap.region = c.heap.region)
      ∧ ∃ d, c.step (.resize (some 144) 0) = .ok (d, .pointer none) ∧ d.pointers = [160]
          ∧ c.Released 144 d := by
  have hrun : (runFrom (.buffer 256) ⟨64, 64⟩ [.allocate 12, .allocate 12, .allocate 12,
      .free (some 128)]).map (fun c => (c.live, [40, 1000].map fun size =>
        (c.step (.resize (some 144) size)).toOption.map Prod.snd))
      = some ([(160, 12), (144, 12)], [some (.pointer (some 176)), some (.pointer none)]) := by
    decide +kernel
  rcases Option.map_eq_some_iff.1 hrun with ⟨c, hrun, hc⟩
  have hreach := reaches_iff.2 ⟨_, hrun⟩
  rcases Prod.mk.inj hc with ⟨hlive, hanswers⟩
  have hpointers : c.pointers = [160, 144] := by
    rw [pointers, hlive]
    rfl
  have hp : 144 ∈ c.pointers := by
    rw [hpointers]
    decide
  simp only [List.map_cons, List.cons.injEq] at hanswers
  rcases hanswers with ⟨h40, h1000, -⟩
  rcases hreach.resized hp with ⟨-, hmoves, hfree⟩
  refine ⟨c, hreach, hlive, hp, ?_, ?_, ?_⟩
  · rcases hmoves 40 (by decide) with ⟨d, answer, hstep, hmoved, -⟩
    rw [hstep] at h40
    cases h40
    exact ⟨d, hstep, hmoved 176 rfl⟩
  · rcases hmoves 1000 (by decide) with ⟨d, answer, hstep, -, hstays⟩
    rw [hstep] at h1000
    cases h1000
    rcases hstays rfl with ⟨hsame, hunmoved⟩
    exact ⟨d, hstep, hsame.trans hlive, hunmoved.region⟩
  · rcases hfree with ⟨d, -, hstep, hleft, hreleased⟩
    exact ⟨d, hstep, hleft.trans (by rw [hpointers]; decide), hreleased⟩

end Client

end BoundaryTag
