import BoundaryTag.Block
import BoundaryTag.Link

/-!
# TotalWrites — reads and writes that come through

The guarded operations on tags and links, as total ones under their guards.

* `setFree`, `setAllocated` and `setPrevFree` are what `writeFree`, `writeAllocated` and
  `notePrevFree` do to the bytes (`writeFree_eq`, `writeAllocated_eq`, `notePrevFree_eq`), and the
  only thing that they can do (`writeFree_eq_ok`, `notePrevFree_eq_ok`).
* `Links.code` is the word for a link that can be stored, and `linkAt` reads it back
  (`linkAt_setWord`).
* Each of them shows in a few words only (`byte_setFree`, `byte_setPrevFree`).
-/

namespace BoundaryTag

/-- A tag was made for a size that it can hold. -/
theorem Tag.lt_of_pack_eq_ok {n : Nat} {a p : Bool} {t : Tag} (h : Tag.pack n a p = .ok t) :
    n < 0x100000000 := by
  by_cases hn : n % 8 = 0 ∧ n < 0x100000000
  · exact hn.2
  · rw [Tag.pack, Fault.require, if_neg hn, Fault.error_bind] at h
    cases h

/-- A sum that was found is the sum. -/
theorem Address.add_eq_ok {a b c : Nat} (h : Address.add a b = .ok c) : c = a + b := by
  rw [Address.add] at h
  split at h
  case isTrue => exact (Except.ok.inj h).symm
  case isFalse => cases h

namespace Region

def setFree (r : Region) (bp size : Nat) (prevFree : Bool) : Region :=
  (r.setWord (bp - 4) (Tag.make size false prevFree).word).setWord (bp + size - 8)
    (Tag.make size false prevFree).word

def setAllocated (r : Region) (bp size : Nat) (prevFree : Bool) : Region :=
  r.setWord (bp - 4) (Tag.make size true prevFree).word

/-- The region where the block at `x` has another note about the block before. -/
def setPrevFree (r : Region) (x : Nat) (prevFree : Bool) : Region :=
  let t := (r.tagAt x).withPrevFree prevFree
  if t.allocated ∨ t.size = 0 then
    r.setWord (x - 4) t.word
  else
    (r.setWord (x - 4) t.word).setWord (x + t.size - 8) t.word

variable {r s : Region} {bp x n : Nat}

/-! ## Tags -/

theorem tagAt_congr (h4 : 4 ≤ bp) (h : ∀ i, bp - 4 ≤ i → i < bp → s.byte i = r.byte i) :
    s.tagAt bp = r.tagAt bp := by
  have hw : s.word (bp - 4) = r.word (bp - 4) := word_congr fun i hi hi' => h i hi (by omega)
  rw [tagAt, tagAt, hw]

theorem tagAt_setWord {t : Tag} (h4 : 4 ≤ bp) (h : bp ≤ r.size) :
    (r.setWord (bp - 4) t.word).tagAt bp = t := by
  rw [tagAt, word_setWord _ (by omega)]

theorem tagAt_setWord_of_disjoint {a : Nat} {w : UInt32} (h4 : 4 ≤ bp)
    (h : a + 4 ≤ bp - 4 ∨ bp ≤ a) : (r.setWord a w).tagAt bp = r.tagAt bp := by
  rw [tagAt, tagAt, word_setWord_of_disjoint (by omega)]

/-- A block whose size is not zero ends past its header. -/
theorem size_tagAt_ge (h : (r.tagAt bp).size ≠ 0) : 8 ≤ (r.tagAt bp).size := by
  have := (r.tagAt bp).size_mod
  omega

/-- Two slices of the same length are the same if their bytes are. -/
theorem slice_eq_slice {a b : Nat} (hr : a + n ≤ r.size) (hs : b + n ≤ s.size)
    (h : ∀ i < n, s.byte (b + i) = r.byte (a + i)) : s.slice b n = r.slice a n := by
  have hrs := size_slice hr
  have hss := size_slice hs
  refine ByteArray.ext (Array.ext (hss.trans hrs.symm) fun i hi hi' => ?_)
  have hin : i < n := by
    rw [← hss]
    exact hi
  have hbyte := h i hin
  rw [← getElem?_slice hin, ← getElem?_slice hin, Array.getElem?_eq_getElem hi,
    Array.getElem?_eq_getElem hi'] at hbyte
  exact hbyte

/-- The front of a slice is a slice. -/
theorem extract_slice {a k : Nat} (h : k ≤ n) : (r.slice a n).extract 0 k = r.slice a k := by
  rw [slice, slice, ByteArray.extract_extract]
  congr 1
  omega

/-! ## Neighbours -/

theorem headerAddr_eq (h4 : 4 ≤ bp) : headerAddr bp = .ok (bp - 4) := by
  rw [headerAddr, Address.sub_eq h4]

theorem next_eq (h4 : 4 ≤ bp) (h : bp ≤ r.size) : r.next bp = .ok (bp + (r.tagAt bp).size) := by
  have hs := (r.tagAt bp).size_le
  have hr := r.size_lt
  rw [next, header_eq h4 h, Fault.ok_bind, Address.add_eq (by omega)]

theorem footerAddr_eq (h4 : 4 ≤ bp) (h : bp ≤ r.size) (hn : (r.tagAt bp).size ≠ 0) :
    r.footerAddr bp = .ok (bp + (r.tagAt bp).size - 8) := by
  have hs := (r.tagAt bp).size_le
  have hr := r.size_lt
  have hm := size_tagAt_ge hn
  rw [footerAddr, header_eq h4 h, Fault.ok_bind, headerAddr_eq h4, Fault.ok_bind,
    Address.add_eq (by omega), Fault.ok_bind, Address.sub_eq (by omega)]
  congr 1
  omega

theorem previous_eq (h8 : 8 ≤ bp) (h : bp ≤ r.size) (hp : (r.tagAt bp).prevFree = true)
    (hn : (Tag.mk (r.word (bp - 8))).size ≤ bp) :
    r.previous bp = .ok (bp - (Tag.mk (r.word (bp - 8))).size) := by
  rw [previous, header_eq (by omega) h, Fault.ok_bind, Fault.require_eq _ hp, Fault.ok_bind,
    Address.sub_eq h8, Fault.ok_bind, tag_eq (by omega), Fault.ok_bind, Address.sub_eq hn]

/-! ## Writing tags -/

/-- A word that was read was inside. -/
theorem read_eq_ok {a : Nat} {w : UInt32} (h : r.read a = .ok w) : a + 4 ≤ r.size := by
  rw [read] at h
  split at h
  case isTrue ha => exact ha
  case isFalse => cases h

/-- A word that was written was inside. -/
theorem write_eq_ok {a : Nat} {w : UInt32} (h : r.write a w = .ok s) :
    a + 4 ≤ r.size ∧ s = r.setWord a w := by
  rw [write] at h
  split at h
  case isTrue ha => exact ⟨ha, (Except.ok.inj h).symm⟩
  case isFalse => cases h

@[simp] theorem size_setFree (prevFree : Bool) : (r.setFree bp n prevFree).size = r.size := by
  rw [setFree, size_setWord, size_setWord]

@[simp] theorem size_setAllocated (prevFree : Bool) :
    (r.setAllocated bp n prevFree).size = r.size := by
  rw [setAllocated, size_setWord]

@[simp] theorem size_setPrevFree (prevFree : Bool) : (r.setPrevFree x prevFree).size = r.size := by
  unfold setPrevFree
  simp only
  split
  · rw [size_setWord]
  · rw [size_setWord, size_setWord]

theorem writeFree_eq {prevFree : Bool} (h4 : 4 ≤ bp) (h8 : n % 8 = 0) (hn : 8 ≤ n)
    (hlt : n < 0x100000000) (h : bp + n ≤ r.size + 4) :
    r.writeFree bp n prevFree = .ok (r.setFree bp n prevFree) := by
  have hr := r.size_lt
  rw [writeFree, Tag.pack_eq _ _ h8 hlt, Fault.ok_bind, headerAddr_eq h4, Fault.ok_bind,
    write_eq _ (by omega), Fault.ok_bind, Address.add_eq (by omega), Fault.ok_bind,
    Address.sub_eq (by omega), Fault.ok_bind, write_eq _ (by rw [size_setWord]; omega), setFree]
  congr 2
  omega

/-- Both tags can be written only if the block ends inside. -/
theorem writeFree_eq_ok {prevFree : Bool} (h4 : 4 ≤ bp) (hn : 8 ≤ n)
    (h : r.writeFree bp n prevFree = .ok s) :
    bp + n ≤ r.size + 4 ∧ s = r.setFree bp n prevFree := by
  by_cases hpack : n % 8 = 0 ∧ n < 0x100000000
  case neg =>
    -- no tag can hold such a size
    rw [writeFree, Tag.pack, Fault.require, if_neg hpack, Fault.error_bind, Fault.error_bind] at h
    cases h
  rw [writeFree, Tag.pack_eq _ _ hpack.1 hpack.2, Fault.ok_bind, headerAddr_eq h4,
    Fault.ok_bind] at h
  rcases Fault.bind_eq_ok.1 h with ⟨r₁, hw, h⟩
  rcases Fault.bind_eq_ok.1 h with ⟨a, hadd, h⟩
  rcases Fault.bind_eq_ok.1 h with ⟨c, hsub, h⟩
  have hr₁ := (write_eq_ok hw).2
  have ha := Address.add_eq_ok hadd
  rw [Address.sub_eq (by omega)] at hsub
  have hc := Except.ok.inj hsub
  rcases write_eq_ok h with ⟨hend, hs⟩
  have hsize : r₁.size = r.size := by rw [hr₁, size_setWord]
  have hfoot : c = bp + n - 8 := by omega
  refine ⟨by omega, ?_⟩
  rw [hs, hr₁, hfoot, setFree]

theorem writeAllocated_eq {prevFree : Bool} (h4 : 4 ≤ bp) (h8 : n % 8 = 0)
    (hlt : n < 0x100000000) (h : bp ≤ r.size) :
    r.writeAllocated bp n prevFree = .ok (r.setAllocated bp n prevFree) := by
  rw [writeAllocated, Tag.pack_eq _ _ h8 hlt, Fault.ok_bind, headerAddr_eq h4, Fault.ok_bind,
    write_eq _ (by omega), setAllocated]

/-- The next block can be told about this one if its tags are inside. -/
theorem notePrevFree_eq {prevFree : Bool} (h4 : 4 ≤ bp) (hx : bp + (r.tagAt bp).size = x)
    (h : x ≤ r.size)
    (hf : (r.tagAt x).allocated = true ∨ (r.tagAt x).size = 0
      ∨ x + (r.tagAt x).size ≤ r.size + 4) :
    r.notePrevFree bp prevFree = .ok (r.setPrevFree x prevFree) := by
  have hlt := r.size_lt
  have hx4 : 4 ≤ x := by omega
  rw [notePrevFree, next_eq h4 (by omega), Fault.ok_bind, hx, header_eq hx4 h, Fault.ok_bind,
    headerAddr_eq hx4, Fault.ok_bind, write_eq _ (by omega), Fault.ok_bind, setPrevFree]
  split
  case isTrue => rfl
  case isFalse hc =>
    rw [Tag.allocated_withPrevFree, Tag.size_withPrevFree] at hc
    have hsz : (r.tagAt x).size ≠ 0 := fun h0 => hc (.inr h0)
    have hge := size_tagAt_ge hsz
    have hfit : x + (r.tagAt x).size ≤ r.size + 4 := by
      rcases hf with ha | h0 | hfit
      · exact absurd (.inl ha) hc
      · exact absurd h0 hsz
      · exact hfit
    -- the footer is found through the header that has just been written
    have ht : (r.setWord (x - 4) ((r.tagAt x).withPrevFree prevFree).word).tagAt x
        = (r.tagAt x).withPrevFree prevFree := tagAt_setWord hx4 h
    rw [footerAddr_eq hx4 (by rw [size_setWord]; exact h)
        (by rw [ht, Tag.size_withPrevFree]; exact hsz),
      ht, Fault.ok_bind, Tag.size_withPrevFree, write_eq _ (by rw [size_setWord]; omega)]

/-- A next block that was told about this one begins inside. -/
theorem notePrevFree_eq_ok {prevFree : Bool} (h : r.notePrevFree bp prevFree = .ok s) :
    bp + (r.tagAt bp).size ≤ r.size ∧ s = r.setPrevFree (bp + (r.tagAt bp).size) prevFree := by
  rw [notePrevFree] at h
  rcases Fault.bind_eq_ok.1 h with ⟨x, hnext, h⟩
  rcases Fault.bind_eq_ok.1 h with ⟨t, hhead, h⟩
  rcases header_eq_ok hhead with ⟨hx4, hx, rfl⟩
  rw [next] at hnext
  rcases Fault.bind_eq_ok.1 hnext with ⟨t, hthis, hadd⟩
  rcases header_eq_ok hthis with ⟨h4, -, rfl⟩
  have hxeq := Address.add_eq_ok hadd
  subst hxeq
  refine ⟨hx, ?_⟩
  rw [headerAddr_eq hx4, Fault.ok_bind, write_eq _ (by omega), Fault.ok_bind] at h
  unfold setPrevFree
  simp only
  split at h
  case isTrue hc =>
    rw [if_pos hc]
    exact (Except.ok.inj h).symm
  case isFalse hc =>
    rw [if_neg hc]
    rcases Fault.bind_eq_ok.1 h with ⟨a, hfoot, h⟩
    rw [footerAddr_eq hx4 (by rw [size_setWord]; exact hx)
      (by rw [tagAt_setWord hx4 hx]; exact fun h0 => hc (.inr h0)), tagAt_setWord hx4 hx] at hfoot
    cases hfoot
    exact (write_eq_ok h).2

/-! ## What the tags show afterwards -/

theorem byte_setFree {i : Nat} {prevFree : Bool} (hi : i < bp - 4 ∨ bp - 4 + 4 ≤ i)
    (hf : i < bp + n - 8 ∨ bp + n - 8 + 4 ≤ i) :
    (r.setFree bp n prevFree).byte i = r.byte i := by
  rw [setFree, byte_setWord_of_ne hf, byte_setWord_of_ne hi]

theorem byte_setAllocated {i : Nat} {prevFree : Bool} (hi : i < bp - 4 ∨ bp - 4 + 4 ≤ i) :
    (r.setAllocated bp n prevFree).byte i = r.byte i := by
  rw [setAllocated, byte_setWord_of_ne hi]

theorem byte_setPrevFree {i : Nat} {prevFree : Bool} (hi : i < x - 4 ∨ x - 4 + 4 ≤ i)
    (hf : (r.tagAt x).allocated = false → (r.tagAt x).size ≠ 0 →
      i < x + (r.tagAt x).size - 8 ∨ x + (r.tagAt x).size - 8 + 4 ≤ i) :
    (r.setPrevFree x prevFree).byte i = r.byte i := by
  unfold setPrevFree
  simp only [Tag.allocated_withPrevFree, Tag.size_withPrevFree]
  split
  case isTrue => rw [byte_setWord_of_ne hi]
  case isFalse hc =>
    have ha : (r.tagAt x).allocated = false := by
      rw [← Bool.not_eq_true]
      exact fun h => hc (.inl h)
    rw [byte_setWord_of_ne (hf ha fun h => hc (.inr h)), byte_setWord_of_ne hi]

/-- Nothing below its header depends on what a block is told. -/
theorem byte_setPrevFree_below {i : Nat} {prevFree : Bool} (hi : i + 4 < x) :
    (r.setPrevFree x prevFree).byte i = r.byte i := by
  refine byte_setPrevFree (by omega) fun _ h0 => ?_
  have := size_tagAt_ge h0
  omega

theorem tagAt_setFree {prevFree : Bool} (h4 : 4 ≤ bp) (hn : 8 ≤ n) (h : bp + n ≤ r.size + 4) :
    (r.setFree bp n prevFree).tagAt bp = Tag.make n false prevFree := by
  -- even the footer of an eight byte block would come after its header
  rw [setFree, tagAt_setWord_of_disjoint h4 (by omega), tagAt_setWord h4 (by omega)]

theorem word_setFree {prevFree : Bool} (hn : 8 ≤ bp + n) (h : bp + n ≤ r.size + 4) :
    (r.setFree bp n prevFree).word (bp + n - 8) = (Tag.make n false prevFree).word := by
  rw [setFree, word_setWord _ (by rw [size_setWord]; omega)]

theorem tagAt_setAllocated {prevFree : Bool} (h4 : 4 ≤ bp) (h : bp ≤ r.size) :
    (r.setAllocated bp n prevFree).tagAt bp = Tag.make n true prevFree := by
  rw [setAllocated, tagAt_setWord h4 h]

theorem tagAt_setPrevFree {prevFree : Bool} (h4 : 4 ≤ x) (h : x ≤ r.size) :
    (r.setPrevFree x prevFree).tagAt x = (r.tagAt x).withPrevFree prevFree := by
  unfold setPrevFree
  simp only
  split
  case isTrue => rw [tagAt_setWord h4 h]
  case isFalse hc =>
    have hsz : (r.tagAt x).size ≠ 0 := by
      rw [← Tag.size_withPrevFree (r.tagAt x) prevFree]
      exact fun h0 => hc (.inr h0)
    have hge := size_tagAt_ge hsz
    rw [tagAt_setWord_of_disjoint h4 (by rw [Tag.size_withPrevFree]; omega), tagAt_setWord h4 h]

theorem word_setPrevFree {prevFree : Bool} (ha : (r.tagAt x).allocated = false)
    (hn : (r.tagAt x).size ≠ 0) (hx : 8 ≤ x + (r.tagAt x).size)
    (h : x + (r.tagAt x).size ≤ r.size + 4) :
    (r.setPrevFree x prevFree).word (x + (r.tagAt x).size - 8)
      = ((r.tagAt x).withPrevFree prevFree).word := by
  unfold setPrevFree
  simp only [Tag.allocated_withPrevFree, Tag.size_withPrevFree]
  rw [if_neg (by rw [ha]; simpa using hn), word_setWord _ (by rw [size_setWord]; omega)]

end Region

namespace Links

variable {l : Links} {r : Region} {bp a : Nat} {addr : Option Nat}

def code (l : Links) : Option Nat → UInt32
  | none => 0
  | some a => UInt32.ofNat (a - l.base)

/-- A link that a word can hold. -/
def Reaches (l : Links) (addr : Option Nat) : Prop :=
  ∀ a, addr = some a → l.base < a ∧ a - l.base < 0x100000000

theorem reaches_none (l : Links) : l.Reaches none := nofun

theorem encode_eq (h : l.Reaches addr) : l.encode addr = .ok (l.code addr) := by
  cases addr with
  | none => rfl
  | some a => exact encode_some (h a rfl).1 (h a rfl).2

theorem setPrevious_eq (h : l.Reaches addr) (hr : bp + 4 ≤ r.size) :
    l.setPrevious r bp addr = .ok (r.setWord bp (l.code addr)) := by
  rw [setPrevious, encode_eq h, Fault.ok_bind, Region.write_eq _ hr]

theorem setNext_eq (h : l.Reaches addr) (hr : bp + 8 ≤ r.size) :
    l.setNext r bp addr = .ok (r.setWord (bp + 4) (l.code addr)) := by
  have hlt := r.size_lt
  rw [setNext, encode_eq h, Fault.ok_bind, Address.add_eq (by omega), Fault.ok_bind,
    Region.write_eq _ (by omega)]

theorem linkAt_congr {s : Region} (h : ∀ i, a ≤ i → i < a + 4 → s.byte i = r.byte i) :
    l.linkAt s a = l.linkAt r a := by
  rw [linkAt, linkAt, Region.word_congr h]

theorem linkAt_setWord (h : l.Reaches addr) (hr : a + 4 ≤ r.size) :
    l.linkAt (r.setWord a (l.code addr)) a = addr := by
  rw [linkAt, Region.word_setWord _ hr]
  cases addr with
  | none => exact if_pos rfl
  | some b =>
    have hb := h b rfl
    have hw : (UInt32.ofNat (b - l.base)).toNat = b - l.base := by
      rw [UInt32.toNat_ofNat']
      omega
    -- an offset is never zero, so that zero can stand for no link
    have h0 : l.code (some b) ≠ 0 := by
      intro h0
      have : (l.code (some b)).toNat = 0 := by rw [h0]; rfl
      rw [code, hw] at this
      omega
    rw [if_neg h0, code, hw]
    congr 1
    omega

theorem linkAt_setWord_of_disjoint {b : Nat} {w : UInt32} (h : b + 4 ≤ a ∨ a + 4 ≤ b) :
    l.linkAt (r.setWord a w) b = l.linkAt r b := by
  rw [linkAt, linkAt, Region.word_setWord_of_disjoint h]

end Links

end BoundaryTag
