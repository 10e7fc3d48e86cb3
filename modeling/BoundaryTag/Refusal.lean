import BoundaryTag.Text.Record

/-!
# Refusal — why memory cannot be had

Why a heap could not be laid out or a request could not be served. A refusal is an answer to the
caller, not a fault: the heap stays as it was.
-/

namespace BoundaryTag

inductive Refusal where
  /-- The source did not grow by the bytes it was asked for. -/
  | outOfMemory (requested : Nat)
  /-- The heap would end where links no longer reach. -/
  | offsetOverflow (limit : Nat)
  /-- No block has the size that was asked for. -/
  | tooLarge (requested : Nat)
  deriving DecidableEq

namespace Refusal

def message : Refusal → String
  | outOfMemory requested =>
    "out of memory: the heap source refused to grow by " ++ toString requested ++ " bytes"
  | offsetOverflow limit =>
    "heap end " ++ hexAddr limit ++ " is beyond the range of 4-byte free-list links"
  | tooLarge requested =>
    "a request of " ++ toString requested ++ " bytes cannot be represented as a block size"

def record : Refusal → Record
  | outOfMemory requested => ⟨"OutOfMemory", [("requested", toString requested)]⟩
  | offsetOverflow limit => ⟨"OffsetOverflow", [("end", toString limit)]⟩
  | tooLarge requested => ⟨"TooLarge", [("requested", toString requested)]⟩

end Refusal

end BoundaryTag
