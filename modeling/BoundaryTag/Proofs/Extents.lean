import BoundaryTag.Plan.Representation

/-!
# Extents — blocks end to end

What follows from extents lying end to end.

* `located_apart`: two of them are the same one or do not overlap. So an address inside of one is
  that of no other (`located_inside`), and links of another are beside it (`located_beside`).
* `exists_split`: a located extent splits the list at its address.
* `Tidy` says that no two neighbours are free, `lastFree` whether the last one is. Around any place
  of tidy extents are a `gap` before it and one after it (`Tidy.exists_around`).
* `IsTag`, `IsLink` and `IsPayload` sort the bytes of blocks by what they are for; a byte is for one
  thing only (`not_isLink_of_isTag`, `not_isPayload_of_isTag`, `not_isPayload_of_isLink`).
-/

namespace BoundaryTag

namespace Extent

/-- Whether the last extent is free, and `prevFree` if there is none. -/
def lastFree (prevFree : Bool) : List Extent → Bool
  | [] => prevFree
  | e :: es => lastFree (!e.allocated) es

/-- No two neighbours are free, and the first is not if the one before is. -/
def Tidy (prevFree : Bool) : List Extent → Prop
  | [] => True
  | e :: es => (e.allocated = false → prevFree = false) ∧ Tidy (!e.allocated) es

/-- Every extent can be a block. -/
def Large (es : List Extent) : Prop := ∀ e ∈ es, minBlock ≤ e.size

def inUse (a : Nat) : List Extent → List (Nat × Nat)
  | [] => []
  | e :: es => if e.allocated then (a, e.size) :: inUse (a + e.size) es else inUse (a + e.size) es

/-- A free extent of `n` bytes, and none if there are no bytes. -/
def gap (n : Nat) : List Extent := if n = 0 then [] else [⟨n, false⟩]

variable {a x y i : Nat} {e f : Extent} {es fs : List Extent} {p : Bool}

/-! ## Places -/

@[simp] theorem stop_nil (a : Nat) : stop a [] = a := rfl

@[simp] theorem stop_cons (a : Nat) (e : Extent) (es : List Extent) :
    stop a (e :: es) = stop (a + e.size) es := rfl

theorem stop_append (a : Nat) (es fs : List Extent) : stop a (es ++ fs) = stop (stop a es) fs := by
  induction es generalizing a with
  | nil => rfl
  | cons e es ih => exact ih (a + e.size)

theorem le_stop (a : Nat) (es : List Extent) : a ≤ stop a es := by
  induction es generalizing a with
  | nil => exact Nat.le_refl a
  | cons e es ih =>
    have := ih (a + e.size)
    rw [stop_cons]
    omega

theorem stop_mod (h : ∀ e ∈ es, e.size % 8 = 0) : stop a es % 8 = a % 8 := by
  induction es generalizing a with
  | nil => rfl
  | cons e es ih =>
    have he := h e List.mem_cons_self
    rw [stop_cons, ih fun e he => h e (List.mem_cons_of_mem _ he)]
    omega

theorem located_append (a : Nat) (es fs : List Extent) :
    located a (es ++ fs) = located a es ++ located (stop a es) fs := by
  induction es generalizing a with
  | nil => rfl
  | cons e es ih => exact congrArg ((a, e) :: ·) (ih (a + e.size))

theorem mem_located_append :
    (x, e) ∈ located a (es ++ fs) ↔ (x, e) ∈ located a es ∨ (x, e) ∈ located (stop a es) fs := by
  rw [located_append, List.mem_append]

theorem mem_located_cons :
    (x, e) ∈ located a (f :: es) ↔ (x = a ∧ e = f) ∨ (x, e) ∈ located (a + f.size) es := by
  rw [located, List.mem_cons, Prod.mk.injEq]

theorem mem_of_mem_located (h : (x, e) ∈ located a es) : e ∈ es := by
  induction es generalizing a with
  | nil => cases h
  | cons f es ih =>
    rcases mem_located_cons.1 h with ⟨_, rfl⟩ | h
    · exact List.mem_cons_self
    · exact List.mem_cons_of_mem _ (ih h)

theorem located_bounds (h : (x, e) ∈ located a es) : a ≤ x ∧ x + e.size ≤ stop a es := by
  induction es generalizing a with
  | nil => cases h
  | cons f es ih =>
    rw [stop_cons]
    rcases mem_located_cons.1 h with ⟨rfl, rfl⟩ | h
    · exact ⟨Nat.le_refl x, le_stop _ es⟩
    · have := ih h
      exact ⟨by omega, this.2⟩

/-- A located extent splits the list at its address. -/
theorem exists_split (h : (x, e) ∈ located a es) :
    ∃ pre post, es = pre ++ e :: post ∧ x = stop a pre := by
  induction es generalizing a with
  | nil => cases h
  | cons f es ih =>
    rcases mem_located_cons.1 h with ⟨rfl, rfl⟩ | h
    · exact ⟨[], es, rfl, rfl⟩
    · rcases ih h with ⟨pre, post, rfl, rfl⟩
      exact ⟨f :: pre, post, rfl, rfl⟩

theorem mem_located_split (a : Nat) (es : List Extent) (e : Extent) (fs : List Extent) :
    (stop a es, e) ∈ located a (es ++ e :: fs) :=
  mem_located_append.2 (.inr (mem_located_cons.2 (.inl ⟨rfl, rfl⟩)))

theorem Large.append : Large (es ++ fs) ↔ Large es ∧ Large fs := by
  constructor
  · intro h
    exact ⟨fun e he => h e (List.mem_append_left _ he),
      fun e he => h e (List.mem_append_right _ he)⟩
  · rintro ⟨hes, hfs⟩ e he
    rcases List.mem_append.1 he with he | he
    · exact hes e he
    · exact hfs e he

theorem Large.cons : Large (e :: es) ↔ minBlock ≤ e.size ∧ Large es := by
  constructor
  · intro h
    exact ⟨h e List.mem_cons_self, fun f hf => h f (List.mem_cons_of_mem _ hf)⟩
  · rintro ⟨he, hes⟩ f hf
    rcases List.mem_cons.1 hf with rfl | hf
    · exact he
    · exact hes f hf

theorem Large.size (h : Large es) (he : (x, e) ∈ located a es) : 16 ≤ e.size :=
  h e (mem_of_mem_located he)

/-- Two located extents are the same one or do not overlap. -/
theorem located_apart (hl : Large es) (hx : (x, e) ∈ located a es) (hy : (y, f) ∈ located a es) :
    (x = y ∧ e = f) ∨ x + e.size ≤ y ∨ y + f.size ≤ x := by
  induction es generalizing a with
  | nil => cases hx
  | cons g es ih =>
    rcases mem_located_cons.1 hx with ⟨rfl, rfl⟩ | hx <;>
      rcases mem_located_cons.1 hy with ⟨rfl, rfl⟩ | hy
    · exact .inl ⟨rfl, rfl⟩
    · exact .inr (.inl (located_bounds hy).1)
    · exact .inr (.inr (located_bounds hx).1)
    · exact ih (Large.cons.1 hl).2 hx hy

/-- What another block needs for its links is in front of a located one, or behind it. -/
theorem located_beside {n : Nat} (hl : Large es) (hx : (x, ⟨n, p⟩) ∈ located a es)
    (hy : (y, f) ∈ located a es) (hne : y ≠ x) : y + 16 ≤ x ∨ x + n ≤ y := by
  have hf := hl.size hy
  rcases located_apart hl hx hy with h | h | h
  · exact absurd h.1.symm hne
  · exact .inr h
  -- the other one has at least sixteen bytes
  · exact .inl (by omega)

/-- An address inside a located extent is that of no other one. -/
theorem located_inside (hl : Large es) (hx : (x, e) ∈ located a es) (hy : (y, f) ∈ located a es)
    (hxy : x ≤ y) (hyx : y < x + e.size) : x = y ∧ e = f := by
  have hf := hl.size hy
  rcases located_apart hl hx hy with h | h | h
  · exact h
  · omega
  · omega

/-- A byte belongs to one block. -/
theorem located_unique (i : Nat) (hl : Large es) (hx : (x, e) ∈ located a es)
    (hy : (y, f) ∈ located a es)
    (hxi : x ≤ i) (hix : i < x + e.size) (hyi : y ≤ i) (hiy : i < y + f.size) : x = y ∧ e = f := by
  rcases located_apart hl hx hy with h | h | h
  · exact h
  · omega
  · omega

theorem located_nodup (hl : Large es) : ((located a es).map Prod.fst).Nodup := by
  induction es generalizing a with
  | nil => exact List.nodup_nil
  | cons e es ih =>
      rcases Large.cons.1 hl with ⟨he, hes⟩
      refine List.nodup_cons.2 ⟨fun hmem => ?_, ih hes⟩
      rcases List.mem_map.1 hmem with ⟨⟨x, f⟩, hx, hxa⟩
      -- the addresses that follow are past the end of the first extent
      have := located_bounds hx
      simp only [minBlock] at he hxa
      omega

/-! ## Free ends -/

theorem lastFree_append : lastFree p (es ++ fs) = lastFree (lastFree p es) fs := by
  induction es generalizing p with
  | nil => rfl
  | cons e es ih => exact ih

@[simp] theorem lastFree_concat : lastFree p (es ++ [e]) = !e.allocated := by
  rw [lastFree_append]
  rfl

theorem Tidy.append : Tidy p (es ++ fs) ↔ Tidy p es ∧ Tidy (lastFree p es) fs := by
  induction es generalizing p with
  | nil => simp [Tidy, lastFree]
  | cons e es ih =>
    rw [List.cons_append, Tidy, Tidy, ih, lastFree, and_assoc]

/-- No free block follows a free one. -/
theorem Tidy.allocated (h : Tidy true (e :: es)) : e.allocated = true := by
  rw [← Bool.not_eq_false]
  exact fun ha => Bool.noConfusion (h.1 ha)

theorem Tidy.of_true (h : Tidy true es) : Tidy p es := by
  cases es with
  | nil => trivial
  | cons e es => exact ⟨fun ha => (Bool.noConfusion (h.1 ha)), h.2⟩

/-! ## Gaps -/

@[simp] theorem gap_zero : gap 0 = [] := rfl

theorem gap_of_ne {n : Nat} (h : n ≠ 0) : gap n = [⟨n, false⟩] := if_neg h

@[simp] theorem stop_gap (a n : Nat) : stop a (gap n) = a + n := by
  unfold gap
  split
  case isTrue h => rw [h]; rfl
  case isFalse => rfl

theorem mem_located_gap {n : Nat} :
    (x, e) ∈ located a (gap n) ↔ n ≠ 0 ∧ x = a ∧ e = ⟨n, false⟩ := by
  unfold gap
  split
  case isTrue h => simp [located, h]
  case isFalse h => simp [located, h]

theorem Tidy.append_free {n : Nat} (hes : Tidy p es) (hlast : lastFree p es = false)
    (hfs : Tidy true fs) : Tidy p (es ++ ⟨n, false⟩ :: fs) :=
  Tidy.append.2 ⟨hes, fun _ => hlast, hfs⟩

/-- The free extent at the end of tidy extents, if there is one, comes after one in use. -/
theorem Tidy.exists_back (hl : Large es) (h : Tidy false es) :
    ∃ pre b, es = pre ++ gap b ∧ lastFree false pre = false := by
  rcases List.eq_nil_or_concat es with rfl | ⟨pre, ⟨n, _ | _⟩, rfl⟩
  · exact ⟨[], 0, rfl, rfl⟩
  · rw [List.concat_eq_append] at h hl ⊢
    have hn : 16 ≤ n := hl ⟨n, false⟩ (List.mem_append_right _ List.mem_cons_self)
    exact ⟨pre, n, by rw [gap_of_ne (by omega)], (Tidy.append.1 h).2.1 rfl⟩
  · rw [List.concat_eq_append] at h ⊢
    exact ⟨pre ++ [⟨n, true⟩], 0, by rw [gap_zero, List.append_nil], lastFree_concat⟩

/-- The free extent in front, if there is one, comes before one in use. -/
theorem Tidy.exists_front (hl : Large es) (h : Tidy p es) :
    ∃ f post, es = gap f ++ post ∧ Tidy true post := by
  cases es with
  | nil => exact ⟨0, [], rfl, trivial⟩
  | cons e es =>
      rcases e with ⟨n, _ | _⟩
      · have hn : 16 ≤ n := hl ⟨n, false⟩ List.mem_cons_self
        exact ⟨n, es, by rw [gap_of_ne (by omega)]; rfl, h.2⟩
      · exact ⟨0, _, rfl, fun ha => Bool.noConfusion ha, h.2⟩

/-! ## Between two gaps -/

section Between

variable {b c : Nat} {pre post : List Extent}

theorem stop_between (x b : Nat) (e : Extent) (c : Nat) :
    stop x (gap b ++ e :: gap c) = x + (b + e.size + c) := by
  rw [stop_append, stop_gap, stop_cons, stop_gap]
  omega

theorem mem_located_between (hx : stop a pre = x) :
    (x + b, e) ∈ located a (pre ++ gap b ++ e :: (gap c ++ post)) := by
  rw [← hx, ← stop_gap (stop a pre) b, ← stop_append]
  exact mem_located_split _ _ _ _

theorem mem_located_before (hx : stop a pre = x) (hb : b ≠ 0) :
    (x, ⟨b, false⟩) ∈ located a (pre ++ gap b ++ e :: (gap c ++ post)) := by
  refine mem_located_append.2 (.inl (mem_located_append.2 (.inr ?_)))
  rw [hx]
  exact mem_located_gap.2 ⟨hb, rfl, rfl⟩

theorem mem_located_behind (hx : stop a pre = x) (hf : c ≠ 0) :
    (x + b + e.size, ⟨c, false⟩) ∈ located a (pre ++ gap b ++ e :: (gap c ++ post)) := by
  refine mem_located_append.2 (.inr (mem_located_cons.2 (.inr ?_)))
  rw [stop_append, hx, stop_gap]
  exact mem_located_append.2 (.inl (mem_located_gap.2 ⟨hf, rfl, rfl⟩))

/-- Up to the end of the second gap there are no other blocks. -/
theorem located_between (hl : Large (pre ++ gap b ++ e :: (gap c ++ post))) (hx : stop a pre = x)
    (hy : (y, f) ∈ located a (pre ++ gap b ++ e :: (gap c ++ post))) (hxy : x ≤ y)
    (hyx : y < x + b + e.size + c) :
    (b ≠ 0 ∧ y = x) ∨ (y = x + b ∧ f = e) ∨ (c ≠ 0 ∧ y = x + b + e.size) := by
  by_cases hyb : y < x + b
  · have hb : b ≠ 0 := by omega
    exact .inl ⟨hb, (located_inside hl (mem_located_before hx hb) hy hxy hyb).1.symm⟩
  · by_cases hye : y < x + b + e.size
    · have heq := located_inside hl (mem_located_between hx) hy (by omega) hye
      exact .inr (.inl ⟨heq.1.symm, heq.2.symm⟩)
    · have hf : c ≠ 0 := by omega
      have heq := located_inside hl (mem_located_behind hx hf) hy (by omega) hyx
      exact .inr (.inr ⟨hf, heq.1.symm⟩)

/-- Around any block are a gap before it and one after it. -/
theorem Tidy.exists_around (hl : Large es) (h : Tidy false es) (hx : (x, e) ∈ located a es) :
    ∃ pre b c post, es = pre ++ gap b ++ e :: (gap c ++ post) ∧ stop a pre + b = x
      ∧ lastFree false pre = false ∧ Tidy true post := by
  rcases exists_split hx with ⟨pre₀, post₀, rfl, rfl⟩
  rcases Tidy.append.1 h with ⟨htidy, -, htidy'⟩
  rcases Large.append.1 hl with ⟨hlarge, hlarge'⟩
  rcases htidy.exists_back hlarge with ⟨pre, b, rfl, hpre⟩
  rcases htidy'.exists_front (Large.cons.1 hlarge').2 with ⟨c, post, rfl, hpost⟩
  exact ⟨pre, b, c, post, rfl, by rw [stop_append, stop_gap], hpre, hpost⟩

end Between

/-! ## In use -/

theorem inUse_append (a : Nat) (es fs : List Extent) :
    inUse a (es ++ fs) = inUse a es ++ inUse (stop a es) fs := by
  induction es generalizing a with
  | nil => rfl
  | cons e es ih =>
    rw [List.cons_append, inUse, inUse, ih, stop_cons]
    split <;> rfl

theorem mem_inUse {n : Nat} : (x, n) ∈ inUse a es ↔ (x, ⟨n, true⟩) ∈ located a es := by
  induction es generalizing a with
  | nil => simp [inUse, located]
  | cons e es ih =>
    rw [inUse, mem_located_cons]
    rcases e with ⟨m, _ | _⟩
    · simp [ih]
    · simp [ih]

theorem map_fst_inUse (a : Nat) (es : List Extent) :
    ((located a es).filter fun q => q.2.allocated).map Prod.fst = (inUse a es).map Prod.fst := by
  induction es generalizing a with
  | nil => rfl
  | cons e es ih =>
    rw [located, inUse, List.filter_cons]
    split
    · rw [List.map_cons, List.map_cons, ih]
    · exact ih (a + e.size)

theorem inUse_free (h : ∀ e ∈ es, e.allocated = false) : inUse a es = [] := by
  induction es generalizing a with
  | nil => rfl
  | cons e es ih =>
    rw [inUse, h e List.mem_cons_self]
    exact ih fun f hf => h f (List.mem_cons_of_mem _ hf)

theorem inUse_gap (a n : Nat) : inUse a (gap n) = [] := by
  refine inUse_free fun e he => ?_
  unfold gap at he
  split at he
  case isTrue => cases he
  case isFalse => rw [List.mem_singleton.1 he]

theorem inUse_nodup (h : Large es) : ((inUse a es).map Prod.fst).Nodup := by
  rw [← map_fst_inUse]
  exact (located_nodup h).sublist (List.filter_sublist.map Prod.fst)

/-! ## Kinds of bytes -/

/-- The byte at `i` is in a header, or in the footer of a free block. -/
def IsTag (a : Nat) (es : List Extent) (i : Nat) : Prop :=
  ∃ x e, (x, e) ∈ located a es ∧ ((x ≤ i + 4 ∧ i < x)
    ∨ (e.allocated = false ∧ x + e.size ≤ i + 8 ∧ i + 4 < x + e.size))

/-- The byte at `i` is in the links of a free block. -/
def IsLink (a : Nat) (es : List Extent) (i : Nat) : Prop :=
  ∃ x e, (x, e) ∈ located a es ∧ e.allocated = false ∧ x ≤ i ∧ i < x + 8

/-- The byte at `i` is in the payload of a block in use. -/
def IsPayload (a : Nat) (es : List Extent) (i : Nat) : Prop :=
  ∃ x n, (x, n) ∈ inUse a es ∧ x ≤ i ∧ i + 4 < x + n

theorem IsTag.bounds (hl : Large es) (h : IsTag a es i) : a ≤ i + 4 ∧ i + 4 < stop a es := by
  rcases h with ⟨x, e, hx, h⟩
  have hb := located_bounds hx
  have hs := hl.size hx
  omega

theorem IsLink.bounds (hl : Large es) (h : IsLink a es i) : a ≤ i ∧ i + 8 < stop a es := by
  rcases h with ⟨x, e, hx, _, h⟩
  have hb := located_bounds hx
  have hs := hl.size hx
  omega

theorem IsPayload.bounds (h : IsPayload a es i) : a ≤ i ∧ i + 4 < stop a es := by
  rcases h with ⟨x, n, hx, h⟩
  have hb := located_bounds (mem_inUse.1 hx)
  simp only at hb
  omega

theorem IsTag.append : IsTag a (es ++ fs) i ↔ IsTag a es i ∨ IsTag (stop a es) fs i := by
  simp only [IsTag, mem_located_append, or_and_right, exists_or]

theorem IsLink.append : IsLink a (es ++ fs) i ↔ IsLink a es i ∨ IsLink (stop a es) fs i := by
  simp only [IsLink, mem_located_append, or_and_right, exists_or]

theorem IsPayload.append :
    IsPayload a (es ++ fs) i ↔ IsPayload a es i ∨ IsPayload (stop a es) fs i := by
  simp only [IsPayload, inUse_append, List.mem_append, or_and_right, exists_or]

/-- The tags of what follows an extent are among all tags. -/
theorem IsTag.after (hx : stop a es = x) (h : IsTag (x + e.size) fs i) :
    IsTag a (es ++ e :: fs) i := by
  rcases h with ⟨y, f, hy, hi⟩
  refine IsTag.append.2 (.inr ⟨y, f, mem_located_cons.2 (.inr ?_), hi⟩)
  rw [hx]
  exact hy

theorem not_isLink_of_isTag (hl : Large es) (h : IsTag a es i) : ¬IsLink a es i := by
  rintro ⟨y, f, hy, hf, hyi⟩
  rcases h with ⟨x, e, hx, h⟩
  have hxs := hl.size hx
  have hys := hl.size hy
  -- both are bytes of one block, whose links end before its footer
  rcases located_unique (i + 4) hl hx hy (by omega) (by omega) (by omega) (by omega) with ⟨rfl, rfl⟩
  omega

theorem not_isPayload_of_isTag (hl : Large es) (h : IsTag a es i) : ¬IsPayload a es i := by
  rintro ⟨y, n, hy, hyi⟩
  rcases h with ⟨x, e, hx, h⟩
  have hxs := hl.size hx
  rcases located_unique (i + 4) hl hx (mem_inUse.1 hy) (by omega) (by omega) (by omega)
    (by simp only; omega) with ⟨rfl, rfl⟩
  simp only [Bool.true_eq_false, false_and, or_false] at h
  omega

theorem not_isPayload_of_isLink (hl : Large es) (h : IsLink a es i) : ¬IsPayload a es i := by
  rintro ⟨y, n, hy, hyi⟩
  rcases h with ⟨x, e, hx, he, h⟩
  have hxs := hl.size hx
  rcases located_unique (i + 4) hl hx (mem_inUse.1 hy) (by omega) (by omega) (by omega)
    (by simp only; omega) with ⟨rfl, rfl⟩
  cases he

end Extent

end BoundaryTag
