import BoundaryTag.Audit.Chain
import BoundaryTag.Audit.Thread
import BoundaryTag.Proofs.IntermediateRegion

/-!
# Walks — what walks over any bytes come to

An audit walks over headers and along links, whatever the region holds.

* `Region.Walk` and `FreeLists.Trail` say what the two walks come to, one case for each way to go on
  or to stop. `exists_walk` and `exists_trail`: they come to an end on any bytes.
* `chain_eq`: the chain over headers that follow one another lists their blocks, and
  `chained_of_violations`: a chain that breaks no rule comes from such headers.
* `follow_eq` and `threads_of_violations` say the same about a list and its thread.
-/

namespace BoundaryTag

open Extent

/-! ## The chain -/

namespace Region

variable {r : Region} {bp x prev : Nat} {p : Bool} {e : Extent} {es : List Extent}

/-- The block at `x` as a walk sees it. -/
def blockAt (r : Region) (x : Nat) : ChainBlock :=
  ⟨x, r.tagAt x,
    if (r.tagAt x).allocated then none else some (r.word (x + (r.tagAt x).size - 8))⟩

@[simp] theorem addr_blockAt (r : Region) (x : Nat) : (r.blockAt x).addr = x := rfl

@[simp] theorem tag_blockAt (r : Region) (x : Nat) : (r.blockAt x).tag = r.tagAt x := rfl

@[simp] theorem isFree_blockAt (r : Region) (x : Nat) :
    (r.blockAt x).isFree = !(r.tagAt x).allocated := rfl

def blocksAt (r : Region) (bp : Nat) (es : List Extent) : List ChainBlock :=
  (located bp es).map fun q => r.blockAt q.1

theorem footerOf_eq (h4 : 4 ≤ bp) (hn : (r.tagAt bp).size ≠ 0)
    (h : bp + (r.tagAt bp).size ≤ r.size) :
    r.footerOf bp (r.tagAt bp) = .ok (r.blockAt bp).footer := by
  have hge := size_tagAt_ge hn
  unfold footerOf blockAt
  simp only
  split
  case isTrue => rfl
  case isFalse =>
    rw [footerAddr_eq h4 (by omega) hn, Fault.ok_bind, read_eq (by omega), Fault.ok_bind,
      Fault.pure_eq_ok]

/-- A step of the walk. -/
theorem chain_step (h4 : 4 ≤ bp) (hn : (r.tagAt bp).size ≠ 0)
    (h : bp + (r.tagAt bp).size ≤ r.size) :
    r.chain bp = (do
      let rest ← r.chain (bp + (r.tagAt bp).size)
      return ⟨r.blockAt bp :: rest.blocks, rest.stop⟩) := by
  have hr := r.size_lt
  rw [chain, if_neg (by omega), header_eq h4 (by omega), Fault.ok_bind, dif_neg hn,
    Address.fits_eq (by omega), Fault.ok_bind, dif_neg (by omega), footerOf_eq h4 hn h,
    Fault.ok_bind]
  rfl

/-- The chain over headers that follow one another lists their blocks. -/
theorem Chained.chain_eq (h4 : 4 ≤ bp) (h : r.Chained bp p es) :
    r.chain bp = .ok ⟨r.blocksAt bp es, .epilogue r.size (r.tagAt r.size)⟩ := by
  induction es generalizing bp p with
  | nil =>
      have hend := h.ended
      rw [stop_nil] at hend
      rcases hend with ⟨rfl, hsize, -, -⟩
      rw [chain, if_neg (by omega), header_eq h4 (Nat.le_refl _), Fault.ok_bind, dif_pos hsize]
      rfl
  | cons e es ih =>
      have he := h.tagged.1
      have hrest := h.tail
      have hl : 16 ≤ e.size := he.large
      have hle := hrest.le_size
      rw [chain_step h4 (by rw [he.size]; omega) (by rw [he.size]; omega), he.size,
        ih (by omega) hrest, Fault.ok_bind]
      rfl

/-- What the walk over headers from `bp` on comes to. A block that it walks over is a step of at
least eight bytes up, and ends inside the region. -/
inductive Walk (r : Region) : Nat → Chain → Prop where
  | outside {bp : Nat} (past : r.size < bp) : Walk r bp ⟨[], .outside bp⟩
  | epilogue {bp : Nat} (inside : bp ≤ r.size) (empty : (r.tagAt bp).size = 0) :
      Walk r bp ⟨[], .epilogue bp (r.tagAt bp)⟩
  | overrun {bp : Nat} (inside : bp ≤ r.size) (nonempty : (r.tagAt bp).size ≠ 0)
      (past : r.size < bp + (r.tagAt bp).size) : Walk r bp ⟨[], .overrun bp (r.tagAt bp)⟩
  | block {bp : Nat} {rest : Chain} (step : 8 ≤ (r.tagAt bp).size)
      (inside : bp + (r.tagAt bp).size ≤ r.size) (more : Walk r (bp + (r.tagAt bp).size) rest) :
      Walk r bp ⟨r.blockAt bp :: rest.blocks, rest.stop⟩

/-- The walk over headers ends on any bytes. -/
theorem exists_walk (h4 : 4 ≤ bp) : ∃ c, r.chain bp = .ok c ∧ r.Walk bp c := by
  have hr := r.size_lt
  -- a block that is walked over has at least eight bytes, so less of the region is left
  induction hk : r.size - bp using Nat.strongRecOn generalizing bp with
  | ind k ih =>
      by_cases hout : r.size < bp
      · refine ⟨_, ?_, .outside hout⟩
        rw [chain, if_pos hout]
        rfl
      have hhead : r.header bp = .ok (r.tagAt bp) := header_eq h4 (by omega)
      by_cases hn : (r.tagAt bp).size = 0
      · refine ⟨_, ?_, .epilogue (by omega) hn⟩
        rw [chain, if_neg hout, hhead, Fault.ok_bind, dif_pos hn]
        rfl
      by_cases hover : r.size < bp + (r.tagAt bp).size
      · have hle := (r.tagAt bp).size_le
        refine ⟨_, ?_, .overrun (by omega) hn hover⟩
        rw [chain, if_neg hout, hhead, Fault.ok_bind, dif_neg hn, Address.fits_eq (by omega),
          Fault.ok_bind, dif_pos hover]
        rfl
      have hge := size_tagAt_ge hn
      have hless : r.size - (bp + (r.tagAt bp).size) < k := by omega
      rcases ih _ hless (by omega) rfl with ⟨rest, hrest, hwalk⟩
      refine ⟨_, ?_, .block hge (by omega) hwalk⟩
      rw [chain_step h4 hn (by omega), hrest, Fault.ok_bind]
      rfl

theorem walk_of_chain {c : Chain} (h4 : 4 ≤ bp) (hc : r.chain bp = .ok c) : r.Walk bp c := by
  rcases exists_walk (r := r) h4 with ⟨c', hc', hwalk⟩
  exact Except.ok.inj (hc'.symm.trans hc) ▸ hwalk

/-- The tag of a block is what its header says. -/
theorem Walk.tag_eq {c : Chain} (h : r.Walk bp c) {b : ChainBlock} (hb : b ∈ c.blocks) :
    b.tag = r.tagAt b.addr := by
  induction h with
  | block step inside more ih =>
      rcases List.mem_cons.1 hb with rfl | hrest
      · rw [tag_blockAt, addr_blockAt]
      · exact ih hrest
  | _ => cases hb

/-! ### Rules of the chain -/

theorem staleAt_eq_nil {t : Tag} : t.staleAt x (!p) = [] ↔ t.prevFree = p := by
  unfold Tag.staleAt
  cases t.prevFree <;> cases p <;> simp

theorem shapeAt_eq_nil {t : Tag} : t.shapeAt x = [] ↔ x % 8 = 0 ∧ minBlock ≤ t.size := by
  unfold Tag.shapeAt
  have hmod := t.size_mod
  by_cases hx : x % 8 = 0 <;> simp [alignment, hmod, hx]

theorem footerViolations_eq_nil {b : ChainBlock} :
    b.footerViolations = [] ↔ ∀ f, b.footer = some f → f = b.tag.word := by
  rcases b with ⟨addr, t, _ | f⟩
  · exact iff_of_true rfl nofun
  · rw [ChainBlock.footerViolations]
    simp only [Option.some.injEq, forall_eq']
    split
    case isTrue h => exact iff_of_true rfl h
    case isFalse h => exact iff_of_false (List.cons_ne_nil _ _) h

theorem footer_blockAt : (∀ f, (r.blockAt x).footer = some f → f = (r.blockAt x).tag.word) ↔
    ((r.tagAt x).allocated = false → r.word (x + (r.tagAt x).size - 8) = (r.tagAt x).word) := by
  rw [blockAt]
  simp only
  split
  case isTrue h => exact iff_of_true nofun fun hf => absurd (h.symm.trans hf) nofun
  case isFalse h =>
    simp only [Option.some.injEq, forall_eq']
    exact ⟨fun hw _ => hw, fun hw => hw (by simpa using h)⟩

theorem adjacent_eq_nil : (if (r.blockAt x).isFree ∧ (!p) = false then
    [Violation.adjacentFree prev (r.blockAt x).addr] else []) = [] ↔
    ((r.tagAt x).allocated = false → p = false) := by
  unfold ChainBlock.isFree blockAt
  cases (r.tagAt x).allocated <;> cases p <;> simp

/-- A block breaks no rule when its tags are those of an extent which fits the one before. -/
theorem violations_blockAt :
    (r.blockAt x).violations prev (!p) = [] ↔
      x % 8 = 0 ∧ r.TagsAt x p ⟨(r.tagAt x).size, (r.tagAt x).allocated⟩
        ∧ ((r.tagAt x).allocated = false → p = false) := by
  rw [ChainBlock.violations, List.append_eq_nil_iff, List.append_eq_nil_iff,
    List.append_eq_nil_iff, footerViolations_eq_nil, footer_blockAt, adjacent_eq_nil, blockAt,
    staleAt_eq_nil, shapeAt_eq_nil]
  constructor
  · rintro ⟨⟨⟨hprev, hmod, hmin⟩, hfooter⟩, hadj⟩
    exact ⟨hmod, ⟨hmin, rfl, rfl, hprev, hfooter⟩, hadj⟩
  · rintro ⟨hmod, htag, hadj⟩
    exact ⟨⟨⟨htag.prevFree, hmod, htag.large⟩, htag.footer⟩, hadj⟩

theorem violations_epilogue {t : Tag} {top : Nat} :
    (ChainEnd.epilogue x t).violations top (!p) = [] ↔
      t.prevFree = p ∧ t.allocated = true ∧ x = top := by
  rw [ChainEnd.violations, List.append_eq_nil_iff, staleAt_eq_nil]
  simp

/-- Headers that follow one another break no rule of the chain. -/
theorem Chained.violations_eq_nil (h : r.Chained bp p es) (htidy : Tidy p es) (h8 : bp % 8 = 0) :
    Chain.violationsFrom r.size (.epilogue r.size (r.tagAt r.size)) prev (!p) (r.blocksAt bp es)
      = [] := by
  induction es generalizing bp p prev with
  | nil =>
      have hend := h.ended
      rw [stop_nil, h.stop_eq.symm.trans (stop_nil bp)] at *
      exact violations_epilogue.2 ⟨hend.prevFree, hend.allocated, rfl⟩
  | cons e es ih =>
      have he := h.tagged.1
      have hrest := h.tail
      have hmod := he.size_mod
      -- the walk knows a block by its tag only
      have htags : e = ⟨(r.tagAt bp).size, (r.tagAt bp).allocated⟩ := by
        rw [he.size, he.allocated]
      have hblock : (r.blockAt bp).violations prev (!p) = [] :=
        violations_blockAt.2 ⟨h8, htags ▸ he, he.allocated ▸ htidy.1⟩
      have hnext : Chain.violationsFrom r.size (.epilogue r.size (r.tagAt r.size)) bp
          (!!e.allocated) (r.blocksAt (bp + e.size) es) = [] := ih hrest htidy.2 (by omega)
      show (r.blockAt bp).violations prev (!p) ++ _ = []
      rw [hblock, List.nil_append]
      show Chain.violationsFrom _ _ bp (r.tagAt bp).allocated (r.blocksAt (bp + e.size) es) = []
      rw [he.allocated, ← Bool.not_not e.allocated]
      exact hnext

/-- A chain that breaks no rule comes from headers that follow one another. -/
theorem chained_of_violations {c : Chain} (h : r.Walk bp c)
    (hv : Chain.violationsFrom r.size c.stop prev (!p) c.blocks = []) :
    ∃ es, r.Chained bp p es ∧ Tidy p es := by
  induction h generalizing p prev with
  | outside past => cases hv
  | @epilogue bp inside empty =>
      rcases violations_epilogue.1 hv with ⟨hprev, halloc, htop⟩
      exact ⟨[], ⟨trivial, htop, empty, halloc, hprev⟩, trivial⟩
  | overrun inside nonempty past =>
      have hend := (List.append_eq_nil_iff.1 hv).2
      cases hend
  | @block bp rest step inside more ih =>
      rcases List.append_eq_nil_iff.1 hv with ⟨hblock, hafter⟩
      rcases violations_blockAt.1 hblock with ⟨-, htag, hadj⟩
      have hafter' : Chain.violationsFrom r.size rest.stop bp (!(!(r.tagAt bp).allocated))
          rest.blocks = [] := by
        rw [Bool.not_not]
        exact hafter
      rcases ih hafter' with ⟨es, hchained, htidy⟩
      exact ⟨⟨(r.tagAt bp).size, (r.tagAt bp).allocated⟩ :: es,
        ⟨⟨htag, hchained.tagged⟩, hchained.ended⟩, hadj, htidy⟩

end Region

/-! ## The threads -/

namespace FreeLists

variable {l : FreeLists} {r : Region} {lo a prev index : Nat} {cursor : Option Nat}
  {nodes visited free : List Nat}

/-- The block at `a` as a walk through the lists sees it. -/
def nodeAt (l : FreeLists) (r : Region) (a : Nat) : ThreadNode :=
  ⟨a, l.links.linkAt r a, r.tagAt a⟩

/-- A step of the walk. -/
theorem follow_step (hbase : l.base < 0x8000000000000000) (hlo : lo + 8 ≤ a)
    (hsize : a + 8 ≤ r.size) (hvis : a ∉ visited) :
    l.follow r lo visited (some a) = (do
      let (rest, stop) ← l.follow r lo (a :: visited) (l.links.linkAt r (a + 4))
      return (l.nodeAt r a :: rest, stop)) := by
  have hr := r.size_lt
  rw [follow, Address.fits_eq (by omega), Fault.ok_bind, dif_neg (by omega), dif_neg hvis,
    Links.previous_eq hbase (by omega), Fault.ok_bind, Region.header_eq (by omega) (by omega),
    Fault.ok_bind, Links.next_eq hbase hsize, Fault.ok_bind]
  rfl

/-- The thread of a list leads through its blocks. -/
theorem follow_eq (h : l.Threads r prev cursor nodes) (hbase : l.base < 0x8000000000000000)
    (hspot : ∀ x ∈ nodes, lo + 8 ≤ x ∧ x + 8 ≤ r.size) (hnd : nodes.Nodup)
    (hvis : ∀ x ∈ nodes, x ∉ visited) :
    l.follow r lo visited cursor = .ok (nodes.map (l.nodeAt r), .done) := by
  induction nodes generalizing prev cursor visited with
  | nil =>
      cases h
      rw [follow]
      rfl
  | cons b nodes ih =>
      rcases h with ⟨rfl, -, hrest⟩
      rcases List.nodup_cons.1 hnd with ⟨hb, hnd'⟩
      rcases hspot b List.mem_cons_self with ⟨hlo, hsize⟩
      have hvis' : ∀ x ∈ nodes, x ∉ b :: visited := by
        intro x hx hxv
        rcases List.mem_cons.1 hxv with rfl | hxv
        · exact hb hx
        · exact hvis x (List.mem_cons_of_mem _ hx) hxv
      have hrest' := ih hrest (fun x hx => hspot x (List.mem_cons_of_mem _ hx)) hnd' hvis'
      rw [follow_step hbase hlo hsize (hvis b List.mem_cons_self), hrest', Fault.ok_bind]
      rfl

theorem linkAt_lt (hbase : l.base < 0x8000000000000000) {b : Nat}
    (hb : b ∈ l.links.linkAt r a) : b + 8 < 0x10000000000000000 := by
  unfold Links.linkAt at hb
  split at hb
  case isTrue => cases hb
  case isFalse =>
    have hw := (r.word a).toNat_lt
    have heq : l.base + (r.word a).toNat = b := Option.some.inj hb
    omega

/-- What the walk along links from `cursor` on comes to in a heap at `lo`. It goes on only to a
block inside the heap where it has not been. -/
inductive Trail (l : FreeLists) (r : Region) (lo : Nat) :
    List Nat → Option Nat → List ThreadNode → ThreadEnd → Prop where
  | done {visited : List Nat} : Trail l r lo visited none [] .done
  | outside {visited : List Nat} {a : Nat} (out : a < lo + 8 ∨ r.size < a + 8) :
      Trail l r lo visited (some a) [] (.outside a)
  | again {visited : List Nat} {a : Nat} (inside : lo + 8 ≤ a ∧ a + 8 ≤ r.size)
      (seen : a ∈ visited) : Trail l r lo visited (some a) [] (.again a)
  | node {visited : List Nat} {a : Nat} {nodes : List ThreadNode} {stop : ThreadEnd}
      (inside : lo + 8 ≤ a ∧ a + 8 ≤ r.size) (new : a ∉ visited)
      (more : Trail l r lo (a :: visited) (l.links.linkAt r (a + 4)) nodes stop) :
      Trail l r lo visited (some a) (l.nodeAt r a :: nodes) stop

/-- The walk along links ends on any bytes. -/
theorem exists_trail (hbase : l.base < 0x8000000000000000)
    (hcursor : ∀ b ∈ cursor, b + 8 < 0x10000000000000000) :
    ∃ nodes stop, l.follow r lo visited cursor = .ok (nodes, stop)
      ∧ l.Trail r lo visited cursor nodes stop := by
  -- there are fewer addresses to visit with every block
  induction hk : (unvisited r.size visited).length using Nat.strongRecOn
    generalizing visited cursor with
  | ind k ih =>
      cases cursor with
      | none =>
          refine ⟨[], .done, ?_, .done⟩
          rw [follow]
          rfl
      | some b =>
          have hfits := Address.fits_eq (hcursor b rfl)
          by_cases hout : b < lo + 8 ∨ r.size < b + 8
          · refine ⟨[], .outside b, ?_, .outside hout⟩
            rw [follow, hfits, Fault.ok_bind, dif_pos hout]
            rfl
          by_cases hvis : b ∈ visited
          · refine ⟨[], .again b, ?_, .again (by omega) hvis⟩
            rw [follow, hfits, Fault.ok_bind, dif_neg hout, dif_pos hvis]
            rfl
          have hless := length_unvisited_cons (show b < r.size by omega) hvis
          rcases ih _ (hk ▸ hless) (fun c hc => linkAt_lt hbase hc) rfl with
            ⟨nodes, stop, hfollow, htrail⟩
          refine ⟨l.nodeAt r b :: nodes, stop, ?_, .node (by omega) hvis htrail⟩
          rw [follow_step hbase (by omega) (by omega) hvis, hfollow]
          rfl

/-! ### Rules of the lists -/

/-- The block at `a` is free and in the right class. -/
structure Placed (r : Region) (index : Nat) (free : List Nat) (a : Nat) : Prop where
  allocated : (r.tagAt a).allocated = false
  mem : a ∈ free
  size : SizeClass.of (r.tagAt a).size = index

theorem violations_nodeAt :
    (l.nodeAt r a).backViolations index prev ++ (l.nodeAt r a).placeViolations index free = [] ↔
      l.links.linkAt r a = some prev ∧ Placed r index free a := by
  have hback : (l.nodeAt r a).backViolations index prev = [] ↔ l.links.linkAt r a = some prev := by
    unfold ThreadNode.backViolations nodeAt
    split
    case isTrue h => exact iff_of_true rfl h
    case isFalse h => exact iff_of_false (List.cons_ne_nil _ _) h
  have hplace : (l.nodeAt r a).placeViolations index free = [] ↔ Placed r index free a := by
    unfold ThreadNode.placeViolations nodeAt
    split
    case isTrue h =>
      exact iff_of_false (List.cons_ne_nil _ _) fun hp => absurd (hp.allocated.symm.trans h) nofun
    case isFalse h =>
      split
      case isTrue hm => exact iff_of_false (List.cons_ne_nil _ _) fun hp => hm hp.mem
      case isFalse hm =>
        split
        case isTrue hs => exact iff_of_false (List.cons_ne_nil _ _) fun hp => hs hp.size
        case isFalse hs =>
          exact iff_of_true rfl ⟨by simpa using h, Decidable.not_not.1 hm, Decidable.not_not.1 hs⟩
  rw [List.append_eq_nil_iff, hback, hplace]

/-- A list whose blocks are in their places breaks no rule. -/
theorem violationsFrom_eq_nil (h : l.Threads r prev cursor nodes)
    (hplaced : ∀ x ∈ nodes, Placed r index free x) :
    Thread.violationsFrom index free .done prev (nodes.map (l.nodeAt r)) = [] := by
  induction nodes generalizing prev cursor with
  | nil => rfl
  | cons b nodes ih =>
      rcases h with ⟨-, hback, hrest⟩
      have hb := violations_nodeAt.2 ⟨hback, hplaced b List.mem_cons_self⟩
      have hrest' := ih hrest fun x hx => hplaced x (List.mem_cons_of_mem _ hx)
      rw [List.map_cons, Thread.violationsFrom, hb, List.nil_append]
      exact hrest'

/-- A thread that breaks no rule is that of a list. -/
theorem threads_of_violations {ns : List ThreadNode} {stop : ThreadEnd}
    (h : l.Trail r lo visited cursor ns stop)
    (hv : Thread.violationsFrom index free stop prev ns = []) :
    ∃ nodes, ns = nodes.map (l.nodeAt r) ∧ stop = .done ∧ l.Threads r prev cursor nodes
      ∧ nodes.Nodup ∧ ∀ x ∈ nodes, x ∉ visited ∧ Placed r index free x := by
  induction h generalizing prev with
  | done => exact ⟨[], rfl, rfl, rfl, List.nodup_nil, fun x hx => nomatch hx⟩
  | outside out => cases hv
  | again inside seen => cases hv
  | @node visited a ns stop inside new more ih =>
      rcases List.append_eq_nil_iff.1 hv with ⟨hnode, hafter⟩
      rcases violations_nodeAt.1 hnode with ⟨hback, hplaced⟩
      rcases ih hafter with ⟨nodes, rfl, rfl, hthreads, hnd, hnodes⟩
      refine ⟨a :: nodes, rfl, rfl, ⟨rfl, hback, hthreads⟩, ?_, fun x hx => ?_⟩
      · exact List.nodup_cons.2 ⟨fun ha => (hnodes a ha).1 List.mem_cons_self, hnd⟩
      · rcases List.mem_cons.1 hx with rfl | hx
        · exact ⟨new, hplaced⟩
        · rcases hnodes x hx with ⟨hxv, hxp⟩
          exact ⟨fun hxv' => hxv (List.mem_cons_of_mem _ hxv'), hxp⟩

end FreeLists

end BoundaryTag
