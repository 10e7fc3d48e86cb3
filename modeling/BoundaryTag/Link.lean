import BoundaryTag.Refusal
import BoundaryTag.Region

/-!
# Link — addresses in four bytes

A link is a word that holds the address of a block as its distance from a base address, or zero
for no block. A free block keeps two of them at the start of its payload: the link to the block
before it in its list, then the link to the one after it.

* `Links.encode` and `Links.decode` turn addresses into words and back (`decode_encode`).
* `Links.covers` says whether links reach every address of a heap with a given end.
* `Links.previous`, `Links.next`, `Links.setPrevious` and `Links.setNext` work on stored links.
-/

namespace BoundaryTag

structure Links where
  base : Nat
  deriving DecidableEq

namespace Links

/-- A heap that ends before `limit` has no address that is too far away for a link. -/
def covers (l : Links) (limit : Nat) : Except Refusal Unit :=
  if l.base ≤ limit ∧ limit - l.base < 0x100000000 then
    .ok ()
  else
    .error (.offsetOverflow limit)

/-- The word that links to `addr`. -/
def encode (l : Links) : Option Nat → Except Fault UInt32
  | none => return 0
  | some addr => do
    Fault.require (l.base < addr ∧ addr - l.base < 0x100000000) (.badLink addr)
    return UInt32.ofNat (addr - l.base)

/-- The address that the word `w` links to. -/
def decode (l : Links) (w : UInt32) : Except Fault (Option Nat) :=
  if w = 0 then return none else some <$> Address.add l.base w.toNat

/-- What the word at `a` links to, of the bytes that the region gives. -/
def linkAt (l : Links) (r : Region) (a : Nat) : Option Nat :=
  if r.word a = 0 then none else some (l.base + (r.word a).toNat)

def previous (l : Links) (r : Region) (bp : Nat) : Except Fault (Option Nat) := do
  l.decode (← r.read bp)

def next (l : Links) (r : Region) (bp : Nat) : Except Fault (Option Nat) := do
  l.decode (← r.read (← Address.add bp 4))

def setPrevious (l : Links) (r : Region) (bp : Nat) (addr : Option Nat) :
    Except Fault Region := do
  r.write bp (← l.encode addr)

def setNext (l : Links) (r : Region) (bp : Nat) (addr : Option Nat) : Except Fault Region := do
  let w ← l.encode addr
  r.write (← Address.add bp 4) w

/-! ## Links that are there -/

theorem decode_word {l : Links} {r : Region} {a : Nat} (h : l.base < 0x8000000000000000) :
    l.decode (r.word a) = .ok (l.linkAt r a) := by
  have hw := (r.word a).toNat_lt
  unfold decode linkAt
  split
  case isTrue => exact Fault.pure_eq_ok _
  case isFalse => rw [Address.add_eq (by omega), Fault.map_ok]

theorem previous_eq {l : Links} {r : Region} {bp : Nat} (hb : l.base < 0x8000000000000000)
    (h : bp + 4 ≤ r.size) : l.previous r bp = .ok (l.linkAt r bp) := by
  rw [previous, Region.read_eq h, Fault.ok_bind, decode_word hb]

theorem next_eq {l : Links} {r : Region} {bp : Nat} (hb : l.base < 0x8000000000000000)
    (h : bp + 8 ≤ r.size) : l.next r bp = .ok (l.linkAt r (bp + 4)) := by
  have := r.size_lt
  rw [next, Address.add_eq (by omega), Fault.ok_bind, Region.read_eq (by omega), Fault.ok_bind,
    decode_word hb]

/-! ## Reading back what was written -/

theorem encode_some {l : Links} {addr : Nat} (h : l.base < addr)
    (hs : addr - l.base < 0x100000000) :
    l.encode (some addr) = .ok (UInt32.ofNat (addr - l.base)) := by
  rw [encode, Fault.require_eq _ ⟨h, hs⟩, Fault.ok_bind, Fault.pure_eq_ok]

theorem decode_encode {l : Links} {addr : Nat} (h : l.base < addr)
    (hs : addr - l.base < 0x100000000) (ha : addr < 0x10000000000000000) :
    l.decode (UInt32.ofNat (addr - l.base)) = .ok (some addr) := by
  have hw : (UInt32.ofNat (addr - l.base)).toNat = addr - l.base := by
    rw [UInt32.toNat_ofNat']
    omega
  have h0 : UInt32.ofNat (addr - l.base) ≠ 0 := by
    intro h0
    rw [h0] at hw
    simp at hw
    omega
  rw [decode, if_neg h0, hw, Address.add_eq (by omega), Fault.map_ok]
  congr 2
  omega

end Links

end BoundaryTag
