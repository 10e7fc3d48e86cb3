import BoundaryTag.Audit.Breach
import BoundaryTag.Proofs.Walks

/-!
# HeaderReports — what is reported along headers

A walk over headers ends on any bytes (`Walk`). Here is what is reported about it.

* `exists_of_stop` and `exists_of_step`: where a walk comes from a place on, by its first step.
* `mem_violations_block` and its like: what is reported about a place are the rules that are broken
  there, be it a block in the region, one that passes its end, or an epilogue.
* `Walk.mem_violations` and `Walk.mem_freeBlocks` follow for the whole way, and
  `Walk.violations_nodup`: nothing is reported twice, since walks go upwards.
-/

namespace BoundaryTag

/-! ## Places that a walk comes to -/

section Walks

open Relation

variable {α : Type} {S : α → α → Prop} {p p' : α} {P : α → Prop}

theorem exists_of_stop (hstop : ∀ q, ¬ S p q) : (∃ q, ReflTransGen S p q ∧ P q) ↔ P p := by
  constructor
  · rintro ⟨q, hq, hP⟩
    rcases ReflTransGen.cases_head hq with rfl | ⟨c, hc, -⟩
    · exact hP
    · exact absurd hc (hstop c)
  · intro hP
    exact ⟨p, .refl, hP⟩

theorem exists_of_step (hstep : ∀ q, S p q ↔ q = p') :
    (∃ q, ReflTransGen S p q ∧ P q) ↔ P p ∨ ∃ q, ReflTransGen S p' q ∧ P q := by
  constructor
  · rintro ⟨q, hq, hP⟩
    rcases ReflTransGen.cases_head hq with rfl | ⟨c, hc, hrest⟩
    · exact .inl hP
    · obtain rfl := (hstep c).1 hc
      exact .inr ⟨q, hrest, hP⟩
  · rintro (hP | ⟨q, hq, hP⟩)
    · exact ⟨p, .refl, hP⟩
    · exact ⟨q, .head ((hstep p').2 rfl) hq, hP⟩

end Walks

/-! ## What a violation is about -/

namespace Violation

/-- The address that a walk has come to. -/
def addr : Violation → Nat
  | badPrologue addr _ | badEpilogue addr | misaligned addr _ | badSize addr _ => addr
  | blockOutOfBounds addr | footerMismatch addr _ _ | stalePrevFree addr _ => addr
  | adjacentFree _ next => next
  | listOutOfBounds _ addr | allocatedInList _ addr | wrongClass _ addr _ => addr
  | notABlock _ addr | linkMismatch _ addr _ _ | cycle _ addr => addr
  | countMismatch _ _ => 0

/-- The list in which a walk has come there. -/
def index? : Violation → Option Nat
  | listOutOfBounds index _ | allocatedInList index _ | wrongClass index _ _ => some index
  | notABlock index _ | linkMismatch index _ _ _ | cycle index _ => some index
  | _ => none

/-- It is about a block that a list goes to. -/
def ofBlock : Violation → Bool
  | allocatedInList _ _ | wrongClass _ _ _ | notABlock _ _ | linkMismatch _ _ _ _ => true
  | _ => false

theorem sublist_of_then {c : Prop} [Decidable c] {v : Violation} :
    (if c then [v] else []).Sublist [v] := by
  split
  · exact .refl _
  · exact List.nil_sublist _

theorem sublist_of_else {c : Prop} [Decidable c] {v : Violation} :
    (if c then [] else [v]).Sublist [v] := by
  split
  · exact List.nil_sublist _
  · exact .refl _

end Violation

/-! ## The walk over headers -/

namespace Tag

variable {t : Tag} {x : Nat} {p : Bool} {v : Violation}

theorem mem_staleAt :
    v ∈ t.staleAt x (!p) ↔ t.prevFree ≠ p ∧ v = .stalePrevFree x t.prevFree := by
  rw [staleAt, List.mem_ite_nil_right, List.mem_singleton, Bool.eq_not]

theorem mem_shapeAt (h8 : x % alignment = 0) :
    v ∈ t.shapeAt x ↔ t.size < minBlock ∧ v = .badSize x t.size := by
  rw [shapeAt, if_pos h8, List.nil_append, List.mem_ite_nil_left, List.mem_singleton,
    and_iff_left t.size_mod, Nat.not_le]

end Tag

namespace Region

variable {r : Region} {p q : Position} {c : Chain} {prev x bp : Nat} {b : Bool} {v : Violation}

theorem mem_footerViolations : v ∈ (r.blockAt x).footerViolations ↔
    (r.tagAt x).allocated = false
      ∧ r.word (x + (r.tagAt x).size - 8) ≠ (r.tagAt x).word
      ∧ v = .footerMismatch x (r.tagAt x).word (r.word (x + (r.tagAt x).size - 8)) := by
  rw [ChainBlock.footerViolations, blockAt]
  by_cases ha : (r.tagAt x).allocated = true
  · rw [if_pos ha]
    exact iff_of_false List.not_mem_nil fun h => Bool.false_ne_true (h.1.symm.trans ha)
  · rw [if_neg ha]
    simp only
    rw [List.mem_ite_nil_left, List.mem_singleton, and_iff_right (Bool.eq_false_iff.2 ha)]

theorem not_freeBefore : (!r.freeBefore p) = false ↔
    ∃ y, p.before = some y ∧ (r.tagAt y).allocated = false := by
  rw [freeBefore, Bool.not_eq_false', Option.any_eq_true]
  simp only [Bool.not_eq_true']

theorem mem_adjacent (hprev : ∀ y ∈ p.before, y = prev) :
    v ∈ (if (r.blockAt p.addr).isFree ∧ (!r.freeBefore p) = false then
      [Violation.adjacentFree prev p.addr] else []) ↔
      (r.tagAt p.addr).allocated = false
        ∧ ∃ y, p.before = some y ∧ (r.tagAt y).allocated = false ∧ v = .adjacentFree y p.addr := by
  rw [List.mem_ite_nil_right, List.mem_singleton, isFree_blockAt, not_freeBefore,
    Bool.not_eq_true']
  constructor
  · rintro ⟨⟨hfree, y, hy, hyfree⟩, rfl⟩
    obtain rfl := hprev y hy
    exact ⟨hfree, y, hy, hyfree, rfl⟩
  · rintro ⟨hfree, y, hy, hyfree, rfl⟩
    obtain rfl := hprev y hy
    exact ⟨⟨hfree, y, hy, hyfree⟩, rfl⟩

/-- What is reported about a block that lies in the region are the rules that it breaks. -/
theorem mem_violations_block (hfits : r.Fits p.addr) (h8 : p.addr % 8 = 0)
    (hprev : ∀ y ∈ p.before, y = prev) :
    v ∈ (r.blockAt p.addr).violations prev (!r.freeBefore p) ↔ r.Breaks p v := by
  rw [ChainBlock.violations, tag_blockAt, addr_blockAt, List.mem_append, List.mem_append,
    List.mem_append, Tag.mem_staleAt, Tag.mem_shapeAt h8, mem_footerViolations, mem_adjacent hprev]
  constructor
  · rintro (((⟨h, rfl⟩ | ⟨h, rfl⟩) | ⟨hfree, h, rfl⟩) | ⟨hfree, y, hy, hyfree, rfl⟩)
    · exact .stalePrevFree h
    · exact .badSize hfits.1 h
    · exact .footerMismatch hfits hfree h
    · exact .adjacentFree hy hyfree hfits hfree
  · intro h
    cases h with
    | stalePrevFree stale => exact .inl (.inl (.inl ⟨stale, rfl⟩))
    | badSize nonempty small => exact .inl (.inl (.inr ⟨small, rfl⟩))
    | footerMismatch fits free differ => exact .inl (.inr ⟨free, differ, rfl⟩)
    | adjacentFree before freeBefore fits free => exact .inr ⟨free, _, before, freeBefore, rfl⟩
    | badEpilogue empty wrong => exact absurd empty hfits.1
    | blockOutOfBounds nonempty past => exact absurd hfits.2 (Nat.not_le.2 past)

theorem mem_violations_epilogue (hempty : (r.tagAt p.addr).size = 0) :
    v ∈ (ChainEnd.epilogue p.addr (r.tagAt p.addr)).violations r.size (!r.freeBefore p) ↔
      r.Breaks p v := by
  rw [ChainEnd.violations, List.mem_append, Tag.mem_staleAt, List.mem_ite_nil_left,
    List.mem_singleton, not_and_or, Bool.not_eq_true]
  constructor
  · rintro (⟨h, rfl⟩ | ⟨h, rfl⟩)
    · exact .stalePrevFree h
    · exact .badEpilogue hempty h
  · intro h
    cases h with
    | stalePrevFree stale => exact .inl ⟨stale, rfl⟩
    | badSize nonempty small => exact absurd hempty nonempty
    | footerMismatch fits free differ => exact absurd hempty fits.1
    | adjacentFree before freeBefore fits free => exact absurd hempty fits.1
    | badEpilogue empty wrong => exact .inr ⟨wrong, rfl⟩
    | blockOutOfBounds nonempty past => exact absurd hempty nonempty

theorem mem_violations_overrun (hnonempty : (r.tagAt p.addr).size ≠ 0)
    (hpast : r.size < p.addr + (r.tagAt p.addr).size) (h8 : p.addr % 8 = 0) :
    v ∈ (ChainEnd.overrun p.addr (r.tagAt p.addr)).violations r.size (!r.freeBefore p) ↔
      r.Breaks p v := by
  rw [ChainEnd.violations, List.mem_append, List.mem_append, Tag.mem_staleAt,
    Tag.mem_shapeAt h8, List.mem_singleton]
  constructor
  · rintro ((⟨h, rfl⟩ | ⟨h, rfl⟩) | rfl)
    · exact .stalePrevFree h
    · exact .badSize hnonempty h
    · exact .blockOutOfBounds hnonempty hpast
  · intro h
    cases h with
    | stalePrevFree stale => exact .inl (.inl ⟨stale, rfl⟩)
    | badSize nonempty small => exact .inl (.inr ⟨small, rfl⟩)
    | footerMismatch fits free differ => exact absurd fits.2 (Nat.not_le.2 hpast)
    | adjacentFree before freeBefore fits free => exact absurd fits.2 (Nat.not_le.2 hpast)
    | badEpilogue empty wrong => exact absurd empty hnonempty
    | blockOutOfBounds nonempty past => exact .inr rfl

/-! ### From place to place -/

theorem not_fits_of_empty (hempty : (r.tagAt x).size = 0) : ¬ r.Fits x :=
  fun h => h.1 hempty

theorem not_fits_of_past (hpast : r.size < x + (r.tagAt x).size) : ¬ r.Fits x :=
  fun h => Nat.not_le.2 hpast h.2

/-- A walk ends where there is no block that lies in the region. -/
theorem exists_of_not_fits {P : Position → Prop} (hfits : ¬ r.Fits p.addr) :
    (∃ q, Relation.ReflTransGen r.Onward p q ∧ P q) ↔ P p :=
  exists_of_stop fun _ h => hfits h.1

theorem exists_of_fits {P : Position → Prop} (hfits : r.Fits p.addr) :
    (∃ q, Relation.ReflTransGen r.Onward p q ∧ P q)
      ↔ P p ∨ ∃ q, Relation.ReflTransGen r.Onward (r.behind p) q ∧ P q :=
  exists_of_step fun _ => and_iff_right hfits

theorem eq_of_mem_behind {y : Nat} (hy : y ∈ (r.behind p).before) : y = p.addr :=
  (Option.some.inj hy).symm

theorem freeBefore_behind : (!r.freeBefore (r.behind p)) = (r.tagAt p.addr).allocated := by
  rw [freeBefore, behind, Option.any_some, Bool.not_not]

/-- Walks go upwards. -/
theorem addr_le_of_comes (h : Relation.ReflTransGen r.Onward p q) : p.addr ≤ q.addr := by
  induction h with
  | refl => exact Nat.le_refl _
  | tail _ hstep ih =>
      obtain ⟨-, rfl⟩ := hstep
      exact Nat.le_trans ih (Nat.le_add_right _ _)

/-- What is reported about the blocks from a place on, and about what comes after them, are the
rules that are broken there. -/
theorem Walk.mem_violations (h : r.Walk bp c) (hp : p.addr = bp) (hin : bp ≤ r.size)
    (h8 : bp % 8 = 0) (hprev : ∀ y ∈ p.before, y = prev) :
    v ∈ Chain.violationsFrom r.size c.stop prev (!r.freeBefore p) c.blocks ↔
      ∃ q, Relation.ReflTransGen r.Onward p q ∧ r.Breaks q v := by
  -- a report carries along the block before and whether it is free, and a place tells both
  induction h generalizing p prev with
  | outside past => exact absurd hin (Nat.not_le.2 past)
  | epilogue inside empty =>
      obtain rfl := hp
      rw [exists_of_not_fits (not_fits_of_empty empty)]
      exact mem_violations_epilogue empty
  | overrun inside nonempty past =>
      obtain rfl := hp
      rw [exists_of_not_fits (not_fits_of_past past)]
      exact mem_violations_overrun nonempty past h8
  | @block bp rest step inside more ih =>
      obtain rfl := hp
      have hfits : r.Fits p.addr := ⟨by omega, inside⟩
      have hmod := (r.tagAt p.addr).size_mod
      have hrest := ih rfl inside (by omega) fun y => eq_of_mem_behind
      rw [freeBefore_behind] at hrest
      rw [exists_of_fits hfits, Chain.violationsFrom, List.mem_append]
      exact or_congr (mem_violations_block hfits h8 hprev) hrest

theorem no_freeBlock (hfits : ¬ r.Fits p.addr) :
    x ∈ ([] : List Nat) ↔ ∃ q, Relation.ReflTransGen r.Onward p q
      ∧ q.addr = x ∧ r.Fits x ∧ (r.tagAt x).allocated = false := by
  rw [exists_of_not_fits hfits]
  refine iff_of_false List.not_mem_nil ?_
  rintro ⟨rfl, h, -⟩
  exact hfits h

/-- The free blocks from a place on are those that the walk comes through. -/
theorem Walk.mem_freeBlocks (h : r.Walk bp c) (hp : p.addr = bp) :
    x ∈ c.freeBlocks ↔ ∃ q, Relation.ReflTransGen r.Onward p q
      ∧ q.addr = x ∧ r.Fits x ∧ (r.tagAt x).allocated = false := by
  induction h generalizing p with
  | outside past => exact no_freeBlock (not_fits_of_past (by omega))
  | epilogue inside empty => exact no_freeBlock (not_fits_of_empty (hp ▸ empty))
  | overrun inside nonempty past => exact no_freeBlock (not_fits_of_past (hp ▸ past))
  | @block bp rest step inside more ih =>
      obtain rfl := hp
      have hfits : r.Fits p.addr := ⟨by omega, inside⟩
      have hbehind : (r.behind p).addr = p.addr + (r.tagAt p.addr).size := rfl
      rw [exists_of_fits hfits, ← ih hbehind, Chain.freeBlocks_cons, tag_blockAt, addr_blockAt]
      by_cases ha : (r.tagAt p.addr).allocated = true
      · rw [if_pos ha]
        refine (or_iff_right ?_).symm
        rintro ⟨rfl, -, hfree⟩
        exact absurd (ha.symm.trans hfree) nofun
      · rw [if_neg ha, List.mem_cons]
        refine or_congr_left ⟨?_, fun h => h.1.symm⟩
        rintro rfl
        exact ⟨rfl, hfits, Bool.eq_false_iff.2 ha⟩

theorem Walk.freeBlocks_nodup (h : r.Walk bp c) : c.freeBlocks.Nodup := by
  induction h with
  | outside past => exact List.nodup_nil
  | epilogue inside empty => exact List.nodup_nil
  | overrun inside nonempty past => exact List.nodup_nil
  | @block bp rest step inside more ih =>
      rw [Chain.freeBlocks_cons, tag_blockAt, addr_blockAt]
      split
      · exact ih
      · refine List.nodup_cons.2 ⟨fun hmem => ?_, ih⟩
        rcases (more.mem_freeBlocks (p := r.behind ⟨none, bp⟩) rfl).1 hmem with ⟨q, hq, hqbp, -⟩
        have hle : bp + (r.tagAt bp).size ≤ q.addr := addr_le_of_comes hq
        omega

/-! ### One report for each -/

theorem Breaks.addr_eq (h : r.Breaks p v) : v.addr = p.addr := by
  cases h <;> rfl

theorem Breaks.index_eq (h : r.Breaks p v) : v.index? = none := by
  cases h <;> rfl

/-- No rule is reported twice for a block. -/
theorem violations_block_nodup : ((r.blockAt x).violations prev b).Nodup := by
  have hfooter : (r.blockAt x).footerViolations.Sublist
      [.footerMismatch x (r.tagAt x).word (r.word (x + (r.tagAt x).size - 8))] := by
    rw [ChainBlock.footerViolations, blockAt]
    by_cases ha : (r.tagAt x).allocated = true
    · rw [if_pos ha]
      exact List.nil_sublist _
    · rw [if_neg ha]
      exact Violation.sublist_of_else
  have hall : ((r.blockAt x).violations prev b).Sublist
      ([.stalePrevFree x (r.tagAt x).prevFree] ++ ([.misaligned x alignment] ++
        [.badSize x (r.tagAt x).size]) ++ [.footerMismatch x (r.tagAt x).word
        (r.word (x + (r.tagAt x).size - 8))] ++ [.adjacentFree prev x]) :=
    ((Violation.sublist_of_then.append (Violation.sublist_of_else.append
      Violation.sublist_of_else)).append hfooter).append Violation.sublist_of_then
  exact hall.nodup (by simp)

theorem violations_epilogue_nodup {t : Tag} {top : Nat} :
    ((ChainEnd.epilogue x t).violations top b).Nodup := by
  have hall : ((ChainEnd.epilogue x t).violations top b).Sublist
      ([.stalePrevFree x t.prevFree] ++ [.badEpilogue x]) :=
    Violation.sublist_of_then.append Violation.sublist_of_else
  exact hall.nodup (by simp)

theorem violations_overrun_nodup {t : Tag} {top : Nat} :
    ((ChainEnd.overrun x t).violations top b).Nodup := by
  have hall : ((ChainEnd.overrun x t).violations top b).Sublist
      ([.stalePrevFree x t.prevFree] ++ ([.misaligned x alignment] ++ [.badSize x t.size])
        ++ [.blockOutOfBounds x]) :=
    (Violation.sublist_of_then.append (Violation.sublist_of_else.append
      Violation.sublist_of_else)).append (.refl _)
  exact hall.nodup (by simp)

/-- No rule is reported twice for the same place. -/
theorem Walk.violations_nodup (h : r.Walk bp c) (hp : p.addr = bp) (hin : bp ≤ r.size)
    (h8 : bp % 8 = 0) (hprev : ∀ y ∈ p.before, y = prev) :
    (Chain.violationsFrom r.size c.stop prev (!r.freeBefore p) c.blocks).Nodup := by
  induction h generalizing p prev with
  | outside past => exact absurd hin (Nat.not_le.2 past)
  | epilogue inside empty => exact violations_epilogue_nodup
  | overrun inside nonempty past => exact violations_overrun_nodup
  | @block bp rest step inside more ih =>
      obtain rfl := hp
      have hfits : r.Fits p.addr := ⟨by omega, inside⟩
      have hmod : (p.addr + (r.tagAt p.addr).size) % 8 = 0 := by
        have := (r.tagAt p.addr).size_mod
        omega
      have hrest := ih rfl inside hmod fun y => eq_of_mem_behind
      have hmem := fun v => more.mem_violations (v := v) rfl inside hmod fun y => eq_of_mem_behind
      rw [freeBefore_behind] at hrest hmem
      refine List.nodup_append.2 ⟨violations_block_nodup, hrest, ?_⟩
      -- what is reported later is about a place further up
      rintro v hv w hw rfl
      have hblock := (mem_violations_block hfits h8 hprev).1 hv
      rcases (hmem v).1 hw with ⟨q, hq, hbreaks⟩
      have hle : p.addr + (r.tagAt p.addr).size ≤ q.addr := addr_le_of_comes hq
      have heq : q.addr = p.addr := hbreaks.addr_eq.symm.trans hblock.addr_eq
      omega

end Region

end BoundaryTag
