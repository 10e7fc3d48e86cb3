import BoundaryTag.Client
import BoundaryTag.Proofs.HeapGrowth

/-!
# RegionLength — what changes the length of a region

Blocks change hands inside the region that is there. Only a heap that grows has a longer region
afterwards, whatever the bytes are.

* `FreeLists.size_place`, `FreeLists.size_release` and what they are made of keep the length.
* `Heap.tryAllocate_grows`: a heap grows for a request when no block is found for it, and the other
  calls that ask for memory inherit this (`Client.step_grows`).
-/

namespace BoundaryTag

/-! ## Writing -/

namespace Region

variable {r s : Region} {bp n : Nat} {p : Bool}

theorem size_write {a : Nat} {w : UInt32} (h : r.write a w = .ok s) : s.size = r.size := by
  rcases write_eq_ok h with ⟨-, rfl⟩
  exact size_setWord _ _ _

theorem size_writeFree (h : r.writeFree bp n p = .ok s) : s.size = r.size := by
  rcases Fault.bind_eq_ok.1 h with ⟨t, -, h⟩
  rcases Fault.bind_eq_ok.1 h with ⟨a, -, h⟩
  rcases Fault.bind_eq_ok.1 h with ⟨r₁, hwrite, h⟩
  rcases Fault.bind_eq_ok.1 h with ⟨top, -, h⟩
  rcases Fault.bind_eq_ok.1 h with ⟨footer, -, h⟩
  exact (size_write h).trans (size_write hwrite)

theorem size_writeAllocated (h : r.writeAllocated bp n p = .ok s) : s.size = r.size := by
  rcases Fault.bind_eq_ok.1 h with ⟨t, -, h⟩
  rcases Fault.bind_eq_ok.1 h with ⟨a, -, h⟩
  exact size_write h

theorem size_notePrevFree (h : r.notePrevFree bp p = .ok s) : s.size = r.size := by
  rcases Fault.bind_eq_ok.1 h with ⟨following, -, h⟩
  rcases Fault.bind_eq_ok.1 h with ⟨t, -, h⟩
  rcases Fault.bind_eq_ok.1 h with ⟨a, -, h⟩
  rcases Fault.bind_eq_ok.1 h with ⟨r₁, hwrite, h⟩
  split at h
  case isTrue =>
    cases h
    exact size_write hwrite
  case isFalse =>
    rcases Fault.bind_eq_ok.1 h with ⟨footer, -, h⟩
    exact (size_write h).trans (size_write hwrite)

theorem size_raiseEpilogue (h : r.raiseEpilogue bp n = .ok s) : s.size = r.size := by
  rcases Fault.bind_eq_ok.1 h with ⟨t, -, h⟩
  rcases Fault.bind_eq_ok.1 h with ⟨r₁, hfree, h⟩
  rcases Fault.bind_eq_ok.1 h with ⟨top, -, h⟩
  rcases Fault.bind_eq_ok.1 h with ⟨a, -, h⟩
  rcases Fault.bind_eq_ok.1 h with ⟨epilogue, -, h⟩
  exact (size_write h).trans (size_writeFree hfree)

theorem size_clear {l : FreeLists} (h : l.clear r = .ok s) : s.size = r.size := by
  rcases Fault.bind_eq_ok.1 h with ⟨-, -, h⟩
  have hfill : r.fill l.root 0 (SizeClass.count * sentinelSize) = s := Except.ok.inj h
  rw [← hfill, size_fill]

theorem size_writeFrame {lo : Nat} (h : r.writeFrame lo = .ok s) : s.size = r.size := by
  rcases Fault.bind_eq_ok.1 h with ⟨prologue, -, h⟩
  rcases Fault.bind_eq_ok.1 h with ⟨r₁, hpad, h⟩
  rcases Fault.bind_eq_ok.1 h with ⟨r₂, hheader, h⟩
  rcases Fault.bind_eq_ok.1 h with ⟨r₃, hlists, h⟩
  rcases Fault.bind_eq_ok.1 h with ⟨afterwards, -, h⟩
  rcases Fault.bind_eq_ok.1 h with ⟨footer, -, h⟩
  rcases Fault.bind_eq_ok.1 h with ⟨t, -, h⟩
  rcases Fault.bind_eq_ok.1 h with ⟨r₄, hfooter, h⟩
  rcases Fault.bind_eq_ok.1 h with ⟨top, -, h⟩
  rcases Fault.bind_eq_ok.1 h with ⟨epilogue, -, h⟩
  calc s.size = r₄.size := size_write h
    _ = r₃.size := size_write hfooter
    _ = r₂.size := size_clear hlists
    _ = r₁.size := size_writeAllocated hheader
    _ = r.size := size_write hpad

end Region

namespace Links

variable {l : Links} {r s : Region} {bp : Nat} {o : Option Nat}

theorem size_setPrevious (h : l.setPrevious r bp o = .ok s) : s.size = r.size := by
  rcases Fault.bind_eq_ok.1 h with ⟨w, -, h⟩
  exact Region.size_write h

theorem size_setNext (h : l.setNext r bp o = .ok s) : s.size = r.size := by
  rcases Fault.bind_eq_ok.1 h with ⟨w, -, h⟩
  rcases Fault.bind_eq_ok.1 h with ⟨a, -, h⟩
  exact Region.size_write h

end Links

namespace FreeLists

open Region Links

variable {l : FreeLists} {r s : Region} {bp n : Nat} {events : List Event}

theorem size_insert (h : l.insert r bp n = .ok s) : s.size = r.size := by
  rcases Fault.bind_eq_ok.1 h with ⟨head, -, h⟩
  rcases Fault.bind_eq_ok.1 h with ⟨old, -, h⟩
  rcases Fault.bind_eq_ok.1 h with ⟨r₁, h₁, h⟩
  rcases Fault.bind_eq_ok.1 h with ⟨r₂, h₂, h⟩
  have hlinks : r₂.size = r.size := (size_setPrevious h₂).trans (size_setNext h₁)
  cases old with
  | none => exact (size_setNext h).trans hlinks
  | some o =>
      rcases Fault.bind_eq_ok.1 h with ⟨r₃, h₃, h⟩
      exact (size_setNext h).trans ((size_setPrevious h₃).trans hlinks)

theorem size_remove (h : l.remove r bp = .ok s) : s.size = r.size := by
  rcases Fault.bind_eq_ok.1 h with ⟨before, -, h⟩
  rcases Fault.bind_eq_ok.1 h with ⟨after, -, h⟩
  cases before with
  | none => cases h
  | some b =>
      cases after with
      | none => exact size_setNext h
      | some a =>
          rcases Fault.bind_eq_ok.1 h with ⟨r₁, h₁, h⟩
          exact (size_setNext h).trans (size_setPrevious h₁)

theorem size_place (h : l.place r bp n = .ok (s, events)) : s.size = r.size := by
  rcases Fault.bind_eq_ok.1 h with ⟨t, -, h⟩
  rcases Fault.bind_eq_ok.1 h with ⟨-, -, h⟩
  rcases Fault.bind_eq_ok.1 h with ⟨-, -, h⟩
  rcases Fault.bind_eq_ok.1 h with ⟨r₁, hremove, h⟩
  dsimp only at h
  split at h
  case isTrue =>
    rcases Fault.bind_eq_ok.1 h with ⟨rest, -, h⟩
    rcases Fault.bind_eq_ok.1 h with ⟨r₂, h₂, h⟩
    rcases Fault.bind_eq_ok.1 h with ⟨r₃, h₃, h⟩
    rcases Fault.bind_eq_ok.1 h with ⟨r₄, h₄, h⟩
    rcases Fault.bind_eq_ok.1 h with ⟨r₅, h₅, h⟩
    cases h
    calc s.size = r₄.size := size_insert h₅
      _ = r₃.size := size_notePrevFree h₄
      _ = r₂.size := size_writeFree h₃
      _ = r₁.size := size_writeAllocated h₂
      _ = r.size := size_remove hremove
  case isFalse =>
    rcases Fault.bind_eq_ok.1 h with ⟨r₂, h₂, h⟩
    rcases Fault.bind_eq_ok.1 h with ⟨r₃, h₃, h⟩
    cases h
    calc s.size = r₂.size := size_notePrevFree h₃
      _ = r₁.size := size_writeAllocated h₂
      _ = r.size := size_remove hremove

theorem size_absorb {total : Nat} (h : l.absorb r n bp = .ok (s, total)) : s.size = r.size := by
  rcases Fault.bind_eq_ok.1 h with ⟨t, -, h⟩
  rcases Fault.bind_eq_ok.1 h with ⟨-, -, h⟩
  rcases Fault.bind_eq_ok.1 h with ⟨sum, -, h⟩
  rcases Fault.bind_eq_ok.1 h with ⟨r₁, hremove, h⟩
  cases h
  exact size_remove hremove

theorem size_absorbSide {x : Region × Nat} {side : Option Nat} {total : Nat}
    (h : l.absorbSide x side = .ok (s, total)) : s.size = x.1.size := by
  cases side with
  | none =>
      cases h
      rfl
  | some a => exact size_absorb h

theorem size_finish {block : Nat} {more : List Event}
    (h : l.finish r bp n events = .ok (s, block, more)) : s.size = r.size := by
  rcases Fault.bind_eq_ok.1 h with ⟨t, -, h⟩
  rcases Fault.bind_eq_ok.1 h with ⟨r₁, h₁, h⟩
  rcases Fault.bind_eq_ok.1 h with ⟨r₂, h₂, h⟩
  rcases Fault.bind_eq_ok.1 h with ⟨r₃, h₃, h⟩
  cases h
  calc s.size = r₂.size := size_notePrevFree h₃
    _ = r₁.size := size_insert h₂
    _ = r.size := size_writeFree h₁

theorem size_merge {block : Nat} (h : l.merge r bp = .ok (s, block, events)) :
    s.size = r.size := by
  rw [merge_steps] at h
  rcases Fault.bind_eq_ok.1 h with ⟨t, -, h⟩
  rcases Fault.bind_eq_ok.1 h with ⟨after, -, h⟩
  rcases Fault.bind_eq_ok.1 h with ⟨afterTag, -, h⟩
  rcases Fault.bind_eq_ok.1 h with ⟨before, -, h⟩
  rcases Fault.bind_eq_ok.1 h with ⟨⟨r₁, size₁⟩, h₁, h⟩
  rcases Fault.bind_eq_ok.1 h with ⟨⟨r₂, size₂⟩, h₂, h⟩
  calc s.size = r₂.size := size_finish h
    _ = r₁.size := size_absorbSide h₂
    _ = r.size := size_absorbSide h₁

theorem size_release (h : l.release r bp = .ok (s, events)) : s.size = r.size := by
  rcases Fault.bind_eq_ok.1 h with ⟨t, -, h⟩
  rcases Fault.bind_eq_ok.1 h with ⟨r₁, h₁, h⟩
  rcases Fault.bind_eq_ok.1 h with ⟨r₂, h₂, h⟩
  rcases Fault.bind_eq_ok.1 h with ⟨⟨r₃, block, more⟩, h₃, h⟩
  cases h
  calc s.size = r₂.size := size_merge h₃
    _ = r₁.size := size_notePrevFree h₂
    _ = r.size := size_writeFree h₁

end FreeLists

/-! ## Operations of a heap -/

/-- The size of the block that a call asks for, if it asks for one that there can be. -/
def Call.room : Call → Option Nat
  | .allocate size => blockFor size
  | .tryAllocate size => blockFor size
  | .allocateZeroed count size => blockFor (count * size)
  | .resize _ size => blockFor size
  | _ => none

namespace Heap

variable {h h' : Heap} {size : Nat}

/-- A change of the bytes that keeps the length of the region. -/
theorem size_edit {α : Type} {f : Region → Except Fault (Region × α)} {a : α}
    (hf : ∀ s b, f h.region = .ok (s, b) → s.size = h.region.size)
    (hrun : h.edit f = .ok (h', a)) : h'.region.size = h.region.size := by
  rcases edit_eq_ok hrun with ⟨s, hs, rfl⟩
  exact hf s a hs

theorem size_perform {f : Region → Except Fault (Region × List Event)}
    (hf : ∀ s es, f h.region = .ok (s, es) → s.size = h.region.size)
    (hrun : h.perform f = .ok h') : h'.region.size = h.region.size := by
  rcases Fault.bind_eq_ok.1 hrun with ⟨⟨h₁, events⟩, hedit, hnote⟩
  cases hnote
  rw [region_noteEvents]
  exact size_edit hf hedit

theorem size_place {bp need : Nat} (hrun : h.place bp need = .ok h') :
    h'.region.size = h.region.size :=
  size_perform (fun _ _ hs => FreeLists.size_place hs) hrun

theorem size_free {p : Option Nat} (hrun : h.free p = .ok h') :
    h'.region.size = h.region.size := by
  cases p with
  | none =>
      cases hrun
      rfl
  | some bp => exact size_perform (fun _ _ hs => FreeLists.size_release hs) hrun

/-- A heap grows for a request when no block is found for it. -/
theorem tryAllocate_grows {answer : Except Refusal (Option Nat)}
    (hrun : h.tryAllocate size = .ok (h', answer)) :
    h'.region.size = h.region.size
      ∨ ∃ need, blockFor size = some need ∧ h.lists.firstFit h.region need = .ok none := by
  unfold tryAllocate at hrun
  split at hrun
  case isTrue =>
    cases hrun
    exact .inl rfl
  case isFalse =>
    split at hrun
    case h_1 =>
      cases hrun
      exact .inl rfl
    case h_2 need hneed =>
      rcases Fault.bind_eq_ok.1 hrun with ⟨found, hfound, hrun⟩
      cases found with
      | some bp =>
          rcases Fault.bind_eq_ok.1 hrun with ⟨h₁, hplace, hrun⟩
          cases hrun
          exact .inl (size_place hplace)
      | none => exact .inr ⟨need, (Option.filter_eq_some_iff.1 hneed).1, hfound⟩

theorem allocate_grows {p : Option Nat} (hrun : h.allocate size = .ok (h', p)) :
    h'.region.size = h.region.size
      ∨ ∃ need, blockFor size = some need ∧ h.lists.firstFit h.region need = .ok none := by
  rcases Fault.bind_eq_ok.1 hrun with ⟨⟨h₁, answer⟩, htry, hrun⟩
  have hgrows := tryAllocate_grows htry
  cases answer <;> cases hrun <;> exact hgrows

theorem allocateZeroed_grows {count : Nat} {p : Option Nat}
    (hrun : h.allocateZeroed count size = .ok (h', p)) :
    h'.region.size = h.region.size
      ∨ ∃ need, blockFor (count * size) = some need
        ∧ h.lists.firstFit h.region need = .ok none := by
  unfold allocateZeroed at hrun
  split at hrun
  case isFalse =>
    cases hrun
    exact .inl rfl
  case isTrue =>
    rcases Fault.bind_eq_ok.1 hrun with ⟨⟨h₁, answer⟩, halloc, hrun⟩
    have hgrows := allocate_grows halloc
    cases answer with
    | none =>
        cases hrun
        exact hgrows
    | some a =>
        rcases Fault.bind_eq_ok.1 hrun with ⟨n, -, hrun⟩
        rcases Fault.bind_eq_ok.1 hrun with ⟨⟨h₂, _⟩, hfill, hrun⟩
        cases hrun
        have hsize : h'.region.size = h₁.region.size := by
          refine size_edit ?_ hfill
          intro s b hs
          cases hs
          exact Region.size_fill _ _ _ _
        rwa [hsize]

theorem resize_grows {p q : Option Nat} (hrun : h.resize p size = .ok (h', q)) :
    h'.region.size = h.region.size
      ∨ ∃ need, blockFor size = some need ∧ h.lists.firstFit h.region need = .ok none := by
  unfold resize at hrun
  split at hrun
  case isTrue =>
    rcases Fault.bind_eq_ok.1 hrun with ⟨h₁, hfree, hrun⟩
    cases hrun
    exact .inl (size_free hfree)
  case isFalse =>
    cases p with
    | none => exact allocate_grows hrun
    | some old =>
        rcases Fault.bind_eq_ok.1 hrun with ⟨⟨h₁, answer⟩, halloc, hrun⟩
        have hgrows := allocate_grows halloc
        cases answer with
        | none =>
            cases hrun
            exact hgrows
        | some new =>
            rcases Fault.bind_eq_ok.1 hrun with ⟨n, -, hrun⟩
            rcases Fault.bind_eq_ok.1 hrun with ⟨⟨h₂, _⟩, hcopy, hrun⟩
            rcases Fault.bind_eq_ok.1 hrun with ⟨h₃, hfree, hrun⟩
            cases hrun
            -- copying keeps the length, and so does freeing
            have hmoved : h₂.region.size = h₁.region.size := by
              refine size_edit ?_ hcopy
              intro s b hs
              rcases Fault.bind_eq_ok.1 hs with ⟨t, ht, hs⟩
              cases hs
              exact Region.size_copy ht
            rwa [size_free hfree, hmoved]

theorem size_writePayload {p start : Nat} {bs : ByteArray} {fits : Bool}
    (hrun : h.writePayload p start bs = .ok (h', fits)) : h'.region.size = h.region.size := by
  rcases Fault.bind_eq_ok.1 hrun with ⟨n, -, hrun⟩
  split at hrun
  case isFalse =>
    cases hrun
    rfl
  case isTrue =>
    rcases Fault.bind_eq_ok.1 hrun with ⟨⟨h₁, _⟩, hstore, hrun⟩
    cases hrun
    refine size_edit ?_ hstore
    intro s b hs
    rcases Fault.bind_eq_ok.1 hs with ⟨t, ht, hs⟩
    cases hs
    exact Region.size_store ht

end Heap

/-- The region becomes longer with no call but one that asks for a block, and then only if none was
found. -/
theorem Client.step_grows {c d : Client} {call : Call} {answer : Answer}
    (hstep : c.step call = .ok (d, answer)) :
    d.heap.region.size = c.heap.region.size
      ∨ ∃ need, call.room = some need
        ∧ c.heap.lists.firstFit c.heap.region need = .ok none := by
  cases call with
  | allocate size =>
      rcases Fault.bind_eq_ok.1 hstep with ⟨⟨h, p⟩, hrun, hd⟩
      cases hd
      exact Heap.allocate_grows hrun
  | tryAllocate size =>
      rcases Fault.bind_eq_ok.1 hstep with ⟨⟨h, granted⟩, hrun, hd⟩
      have hgrows := Heap.tryAllocate_grows hrun
      cases granted <;> cases hd <;> exact hgrows
  | allocateZeroed count size =>
      rcases Fault.bind_eq_ok.1 hstep with ⟨⟨h, p⟩, hrun, hd⟩
      cases hd
      exact Heap.allocateZeroed_grows hrun
  | free p =>
      rcases Fault.bind_eq_ok.1 hstep with ⟨h, hrun, hd⟩
      cases hd
      exact .inl (Heap.size_free hrun)
  | resize p size =>
      rcases Fault.bind_eq_ok.1 hstep with ⟨⟨h, q⟩, hrun, hd⟩
      cases hd
      exact Heap.resize_grows hrun
  | write p start bytes =>
      rcases Fault.bind_eq_ok.1 hstep with ⟨⟨h, fits⟩, hrun, hd⟩
      cases hd
      exact .inl (Heap.size_writePayload hrun)

end BoundaryTag
