/-!
# SizeClass — free blocks by size

Free blocks are kept apart by size. A class has an upper limit, which its blocks stay below, and
the last class takes everything that is left.

* `SizeClass.of` is the first class whose limit is above a size. It grows with the size
  (`of_le_of`).
-/

namespace BoundaryTag

namespace SizeClass

/-- The limits of all classes but the last. -/
def limits : List Nat :=
  [16, 32, 64, 128, 256, 512, 1024, 2048, 8192, 16384, 25000, 32784, 65536]

@[simp] def count : Nat := 14

/-- The class of the blocks of `size` bytes. -/
def of (size : Nat) : Nat := limits.findIdx (size < ·)

theorem count_eq : count = limits.length + 1 := rfl

theorem of_lt_count (size : Nat) : of size < count :=
  Nat.lt_succ_of_le List.findIdx_le_length

/-- A larger block is in no lower class. -/
theorem of_le_of {m n : Nat} (h : m ≤ n) : of m ≤ of n := by
  refine List.findIdx_le_findIdx fun limit _ hlimit => ?_
  have hlt : n < limit := of_decide_eq_true hlimit
  exact decide_eq_true (Nat.lt_of_le_of_lt h hlt)

end SizeClass

end BoundaryTag
