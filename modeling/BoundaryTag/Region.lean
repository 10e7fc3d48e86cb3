import BoundaryTag.Fault

/-!
# Region — a growable run of bytes

A region is the memory that a heap manages: a run of bytes with addresses from zero up, which
grows at its top end only. A word is four bytes, the lowest first.

* A region is shorter than `Region.bound`, so an address inside it and a size of a block always add
  up to a 64-bit number.
* `byte` is the view of a region: its value at every address, zero past the end.
* `read` and `write` are guarded: a word that is not wholly inside is a fault.
* Under its guard each of them is the total `word` or `setWord` (`read_eq`, `write_eq`), and
  `setWord` is what the next `word` at its address finds (`word_setWord`) and nothing that any
  other byte shows (`byte_setWord`).
* New bytes are zero, so growing is not seen in `byte` at all (`byte_extend`).
-/

namespace BoundaryTag

/-- One past the number of bytes that a region can have. -/
def Region.bound : Nat := 0x8000000000000000

structure Region where
  bytes : ByteArray
  bounded : bytes.size < Region.bound

namespace Region

def empty : Region := ⟨ByteArray.empty, by decide⟩

def size (r : Region) : Nat := r.bytes.size

theorem size_lt (r : Region) : r.size < 0x8000000000000000 := r.bounded

/-- The byte at `a`, and zero past the end. -/
def byte (r : Region) (a : Nat) : UInt8 :=
  if h : a < r.bytes.size then r.bytes[a] else 0

theorem size_set (bs : ByteArray) (a : Nat) (v : UInt8) (h : a < bs.size) :
    (bs.set a v h).size = bs.size :=
  Array.size_set ..

/-- Replace the byte at `a`. Nothing happens past the end. -/
def setByte (r : Region) (a : Nat) (v : UInt8) : Region :=
  if h : a < r.bytes.size then
    ⟨r.bytes.set a v h, by rw [size_set]; exact r.bounded⟩
  else
    r

/-- The word at `a`, of the bytes that `byte` gives. -/
def word (r : Region) (a : Nat) : UInt32 :=
  UInt32.ofNat ((r.byte a).toNat + (r.byte (a + 1)).toNat * 256
    + (r.byte (a + 2)).toNat * 65536 + (r.byte (a + 3)).toNat * 16777216)

def setWord (r : Region) (a : Nat) (w : UInt32) : Region :=
  (((r.setByte a (UInt8.ofNat w.toNat)).setByte (a + 1) (UInt8.ofNat (w.toNat / 256))).setByte
    (a + 2) (UInt8.ofNat (w.toNat / 65536))).setByte (a + 3) (UInt8.ofNat (w.toNat / 16777216))

/-- Read the word at `a`, all of which must be inside. -/
def read (r : Region) (a : Nat) : Except Fault UInt32 :=
  if a + 4 ≤ r.size then .ok (r.word a) else .error .outside

def write (r : Region) (a : Nat) (w : UInt32) : Except Fault Region :=
  if a + 4 ≤ r.size then .ok (r.setWord a w) else .error .outside

def pushZeros (bs : ByteArray) : Nat → ByteArray
  | 0 => bs
  | n + 1 => pushZeros (bs.push 0) n

theorem size_pushZeros (bs : ByteArray) (n : Nat) : (pushZeros bs n).size = bs.size + n := by
  induction n generalizing bs with
  | zero => rfl
  | succ n ih =>
    rw [pushZeros, ih, ByteArray.size_push]
    omega

def extend (r : Region) (n : Nat) (h : r.size + n < bound) : Region :=
  ⟨pushZeros r.bytes n, by rw [size_pushZeros]; exact h⟩

/-- Set the `n` bytes from `a` on to `v`. -/
def fill (r : Region) (a : Nat) (v : UInt8) : Nat → Region
  | 0 => r
  | n + 1 => fill (r.setByte a v) (a + 1) v n

/-- The `n` bytes from `a` on, as far as the region has them. -/
def slice (r : Region) (a n : Nat) : ByteArray := r.bytes.extract a (a + n)

theorem size_copySlice {bs dst : ByteArray} {a : Nat} (h : a + bs.size ≤ dst.size) :
    (bs.copySlice 0 dst a bs.size).size = dst.size := by
  rw [ByteArray.copySlice_eq_append]
  simp only [ByteArray.size_append, ByteArray.size_extract, ByteArray.size_data]
  omega

/-- Lay `bs` over the bytes from `a` on, all of which must be inside. -/
def store (r : Region) (a : Nat) (bs : ByteArray) : Except Fault Region :=
  if h : a + bs.size ≤ r.size then
    .ok ⟨bs.copySlice 0 r.bytes a bs.size, by rw [size_copySlice h]; exact r.bounded⟩
  else
    .error .outside

/-- Copy `n` bytes from `src` to `dst`. The two runs may overlap. -/
def copy (r : Region) (src dst n : Nat) : Except Fault Region :=
  if src + n ≤ r.size then r.store dst (r.slice src n) else .error .outside

/-! ## Bytes -/

theorem byte_eq_getElem? (r : Region) (a : Nat) : r.byte a = r.bytes.data[a]?.getD 0 := by
  unfold byte
  split
  case isTrue h => exact (congrArg (Option.getD · 0) (Array.getElem?_eq_getElem h)).symm
  case isFalse h =>
    exact (congrArg (Option.getD · 0) (Array.getElem?_eq_none (Nat.not_lt.1 h))).symm

@[ext] theorem ext {r s : Region} (hs : r.size = s.size) (hb : ∀ a, r.byte a = s.byte a) :
    r = s := by
  obtain ⟨⟨x⟩, hx⟩ := r
  obtain ⟨⟨y⟩, hy⟩ := s
  have hxy : x = y := by
    apply Array.ext hs
    intro i hi hj
    have h := hb i
    rw [byte_eq_getElem?, byte_eq_getElem?] at h
    simpa [hi, hj] using h
  subst hxy
  rfl

theorem byte_of_size_le {r : Region} {a : Nat} (h : r.size ≤ a) : r.byte a = 0 :=
  dif_neg (Nat.not_lt.2 h)

@[simp] theorem size_setByte (r : Region) (a : Nat) (v : UInt8) :
    (r.setByte a v).size = r.size := by
  unfold setByte
  split
  · exact Array.size_set ..
  · rfl

theorem byte_setByte (r : Region) (a : Nat) (v : UInt8) (i : Nat) :
    (r.setByte a v).byte i = if i = a ∧ a < r.size then v else r.byte i := by
  by_cases ha : a < r.bytes.size
  · have hset : (r.setByte a v).bytes.data = r.bytes.data.set a v ha := by
      rw [setByte, dif_pos ha]
      rfl
    rw [byte_eq_getElem?, byte_eq_getElem?, hset]
    rw [Array.getElem?_set ha]
    by_cases hi : a = i
    · rw [if_pos hi, if_pos ⟨hi.symm, ha⟩, Option.getD_some]
    · rw [if_neg hi, if_neg (fun h => hi h.1.symm)]
  · have hset : r.setByte a v = r := dif_neg ha
    rw [hset, if_neg (fun h => ha h.2)]

/-! ## Words -/

theorem toNat_word (r : Region) (a : Nat) :
    (r.word a).toNat = (r.byte a).toNat + (r.byte (a + 1)).toNat * 256
      + (r.byte (a + 2)).toNat * 65536 + (r.byte (a + 3)).toNat * 16777216 := by
  have h0 := (r.byte a).toNat_lt
  have h1 := (r.byte (a + 1)).toNat_lt
  have h2 := (r.byte (a + 2)).toNat_lt
  have h3 := (r.byte (a + 3)).toNat_lt
  rw [word, UInt32.toNat_ofNat']
  omega

@[simp] theorem size_setWord (r : Region) (a : Nat) (w : UInt32) :
    (r.setWord a w).size = r.size := by
  simp [setWord]

theorem byte_setWord_of_ne {r : Region} {a : Nat} {w : UInt32} {i : Nat}
    (h : i < a ∨ a + 4 ≤ i) : (r.setWord a w).byte i = r.byte i := by
  simp only [setWord, byte_setByte, size_setByte]
  rw [if_neg (by omega), if_neg (by omega), if_neg (by omega), if_neg (by omega)]

theorem word_setWord {r : Region} {a : Nat} (w : UInt32) (h : a + 4 ≤ r.size) :
    (r.setWord a w).word a = w := by
  apply UInt32.toNat.inj
  have hw := w.toNat_lt
  rw [toNat_word]
  simp (disch := omega) only [setWord, byte_setByte, size_setByte, if_pos, if_neg, true_and,
    UInt8.toNat_ofNat']
  omega

theorem word_congr {r s : Region} {a : Nat}
    (h : ∀ i, a ≤ i → i < a + 4 → r.byte i = s.byte i) : r.word a = s.word a := by
  unfold word
  rw [h a (by omega) (by omega), h (a + 1) (by omega) (by omega), h (a + 2) (by omega) (by omega),
    h (a + 3) (by omega) (by omega)]

theorem word_eq_zero {r : Region} {a : Nat} (h : ∀ i, a ≤ i → i < a + 4 → r.byte i = 0) :
    r.word a = 0 := by
  apply UInt32.toNat.inj
  rw [toNat_word, h a (by omega) (by omega), h (a + 1) (by omega) (by omega),
    h (a + 2) (by omega) (by omega), h (a + 3) (by omega) (by omega)]
  rfl

theorem word_setWord_of_disjoint {r : Region} {a b : Nat} {w : UInt32}
    (h : b + 4 ≤ a ∨ a + 4 ≤ b) : (r.setWord a w).word b = r.word b :=
  word_congr fun i _ _ => byte_setWord_of_ne (by omega)

theorem read_eq {r : Region} {a : Nat} (h : a + 4 ≤ r.size) : r.read a = .ok (r.word a) :=
  if_pos h

theorem write_eq {r : Region} {a : Nat} (w : UInt32) (h : a + 4 ≤ r.size) :
    r.write a w = .ok (r.setWord a w) :=
  if_pos h

/-! ## Runs of bytes -/

@[simp] theorem size_extend (r : Region) (n : Nat) (h : r.size + n < bound) :
    (r.extend n h).size = r.size + n :=
  size_pushZeros r.bytes n

theorem getElem?_pushZeros (bs : ByteArray) (n a : Nat) :
    ((pushZeros bs n).data[a]?).getD 0 = (bs.data[a]?).getD 0 := by
  induction n generalizing bs with
  | zero => rfl
  | succ n ih =>
    rw [pushZeros, ih]
    show ((bs.data.push 0)[a]?).getD 0 = _
    rw [Array.getElem?_push]
    split
    case isTrue h =>
      rw [h, Array.getElem?_eq_none (Nat.le_refl _)]
      rfl
    case isFalse => rfl

@[simp] theorem byte_extend (r : Region) (n : Nat) (h : r.size + n < bound) (a : Nat) :
    (r.extend n h).byte a = r.byte a := by
  rw [byte_eq_getElem?, byte_eq_getElem?]
  exact getElem?_pushZeros r.bytes n a

@[simp] theorem size_fill (r : Region) (a : Nat) (v : UInt8) (n : Nat) :
    (r.fill a v n).size = r.size := by
  induction n generalizing r a with
  | zero => rfl
  | succ n ih => rw [fill, ih, size_setByte]

theorem byte_fill (r : Region) (a : Nat) (v : UInt8) (n i : Nat) :
    (r.fill a v n).byte i = if a ≤ i ∧ i < a + n ∧ i < r.size then v else r.byte i := by
  induction n generalizing r a with
  | zero => rw [fill, if_neg (by omega)]
  | succ n ih =>
    rw [fill, ih, size_setByte, byte_setByte]
    by_cases h : a ≤ i ∧ i < a + (n + 1) ∧ i < r.size
    · rw [if_pos h]
      by_cases hi : i = a
      · rw [if_neg (by omega), if_pos (by omega)]
      · rw [if_pos (by omega)]
    · rw [if_neg h, if_neg (by omega), if_neg (by omega)]

/-! ## Whole slices -/

theorem size_slice {r : Region} {a n : Nat} (h : a + n ≤ r.size) : (r.slice a n).size = n := by
  rw [slice, ByteArray.size_extract]
  unfold size at h
  omega

theorem getElem?_slice {r : Region} {a n i : Nat} (hi : i < n) :
    ((r.slice a n).data[i]?).getD 0 = r.byte (a + i) := by
  rw [byte_eq_getElem?, slice, ByteArray.data_extract, Array.getElem?_extract]
  split
  case isTrue => rfl
  case isFalse h =>
    rw [Array.getElem?_eq_none (by omega)]

theorem size_store {r s : Region} {a : Nat} {bs : ByteArray} (h : r.store a bs = .ok s) :
    s.size = r.size := by
  unfold store at h
  split at h
  case isTrue hs =>
    cases h
    exact size_copySlice hs
  case isFalse => cases h

/-- Storing shows in the bytes that it covers and in no others. -/
theorem byte_store {r s : Region} {a : Nat} {bs : ByteArray} (h : r.store a bs = .ok s)
    (i : Nat) :
    s.byte i = if a ≤ i ∧ i < a + bs.size then (bs.data[i - a]?).getD 0 else r.byte i := by
  unfold store at h
  split at h
  case isFalse => cases h
  case isTrue hs =>
    cases h
    unfold size at hs
    rw [byte_eq_getElem?, byte_eq_getElem?]
    show ((bs.copySlice 0 r.bytes a bs.size).data[i]?).getD 0 = _
    have hd : (bs.copySlice 0 r.bytes a bs.size).data
        = r.bytes.data.extract 0 a ++ bs.data.extract 0 (0 + bs.size)
          ++ r.bytes.data.extract (a + min bs.size (bs.data.size - 0)) r.bytes.data.size := rfl
    have hb : bs.data.size = bs.size := rfl
    have hr : r.bytes.data.size = r.bytes.size := rfl
    rw [hd]
    simp only [Array.getElem?_append, Array.getElem?_extract, Array.size_extract,
      Array.size_append]
    split <;> split <;> (try split) <;> grind

theorem size_copy {r s : Region} {src dst n : Nat} (h : r.copy src dst n = .ok s) :
    s.size = r.size := by
  unfold copy at h
  split at h
  case isTrue => exact size_store h
  case isFalse => cases h

/-- Copying shows the old bytes of the source at the destination, and nothing anywhere else. -/
theorem byte_copy {r s : Region} {src dst n : Nat} (h : r.copy src dst n = .ok s) (i : Nat) :
    s.byte i = if dst ≤ i ∧ i < dst + n then r.byte (src + (i - dst)) else r.byte i := by
  unfold copy at h
  split at h
  case isFalse => cases h
  case isTrue hsrc =>
    rw [byte_store h, size_slice hsrc]
    split
    case isTrue hi => exact getElem?_slice (by omega)
    case isFalse => rfl

end Region

end BoundaryTag
