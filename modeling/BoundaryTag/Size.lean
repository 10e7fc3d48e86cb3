/-!
# Size — the sizes that make up a heap

The sizes that make up a heap, in bytes. Block sizes and payload addresses are multiples of eight,
and a block holds its header in the four bytes before its payload.

* `alignUp n` is the least multiple of eight that is at least `n` (`alignUp_eq_some`).
* `blockFor n` is the size of the block that serves a request of `n` bytes.
-/

namespace BoundaryTag

/-- A header, a footer or a link. -/
def wordSize : Nat := 4

/-- What payload addresses and block sizes are multiples of. -/
def alignment : Nat := 8

/-- A link of a free list. -/
def linkSize : Nat := 4

/-- The smallest block: a header, two links and a footer. -/
@[simp] def minBlock : Nat := 16

/-- The largest block whose size a header can hold. -/
@[simp] def maxBlock : Nat := 0xfffffff8

/-- Round up to a multiple of eight, if that is a 64-bit number. -/
def alignUp (n : Nat) : Option Nat :=
  if n + 7 < 0x10000000000000000 then some ((n + 7) / 8 * 8) else none

/-- The size of the block for a request of `n` bytes: its header and the payload, rounded up, and
no smaller than `minBlock`. -/
def blockFor (n : Nat) : Option Nat :=
  if n + 4 < 0x10000000000000000 then (alignUp (n + 4)).map (max minBlock) else none

theorem minBlock_eq : minBlock = 2 * wordSize + 2 * linkSize := rfl

theorem alignUp_eq_some {n m : Nat} :
    alignUp n = some m ↔ n + 7 < 0x10000000000000000 ∧ m % 8 = 0 ∧ n ≤ m ∧ m < n + 8 := by
  unfold alignUp
  split <;> simp <;> omega

theorem alignUp_mod {n m : Nat} (h : alignUp n = some m) : m % 8 = 0 :=
  (alignUp_eq_some.1 h).2.1

theorem alignUp_of_mod {n : Nat} (h : n % 8 = 0) (hn : n + 7 < 0x10000000000000000) :
    alignUp n = some n :=
  alignUp_eq_some.2 ⟨hn, h, by omega, by omega⟩

end BoundaryTag
