import BoundaryTag.Log
import BoundaryTag.Refusal

/-!
# Journal — what happens to a heap

A heap notes what happens to it: the events that change its structure, which an observer may
follow, and two notices. The log shows the notices always and the events on demand.
-/

namespace BoundaryTag

/-- A change to the structure of a heap. -/
inductive Event where
  /-- `bytes` bytes were added at `base`. -/
  | grow (base bytes : Nat)
  /-- The free block at `block` became an allocated block of `placed` bytes and a free block of
  `rest` bytes after it. -/
  | split (block placed rest : Nat)
  /-- Neighbouring free blocks became one of `size` bytes at `block`. -/
  | coalesce (block size : Nat)
  deriving DecidableEq

inductive Entry where
  | event (e : Event)
  /-- The heap was laid out from `lo` to `hi`. -/
  | laidOut (lo hi : Nat)
  /-- A request was refused. -/
  | refused (size : Nat) (reason : Refusal)
  deriving DecidableEq

namespace Event

def text : Event → String
  | grow base bytes => "grow: " ++ toString bytes ++ " bytes at " ++ hexAddr base
  | split block placed rest =>
    "split: " ++ hexAddr block ++ " → " ++ toString placed ++ " bytes allocated + "
      ++ toString rest ++ " bytes free at " ++ hexAddr (block + placed)
  | coalesce block size =>
    "coalesce: " ++ hexAddr block ++ " is now " ++ toString size ++ " bytes"

end Event

namespace Entry

def event? : Entry → Option Event
  | event e => some e
  | _ => none

/-- What the log says about an entry that is not an event. -/
def notice? : Entry → Option LogRecord
  | event _ => none
  | laidOut lo hi =>
    some ⟨.debug, "heap initialized: " ++ hexAddr lo ++ "..=" ++ hexAddr hi⟩
  | refused size reason =>
    some ⟨.debug, "allocate(" ++ toString size ++ ") failed: " ++ reason.message⟩

/-- What the log says about an entry when events are logged as well. -/
def log : Entry → Option LogRecord
  | event e => some ⟨.trace, e.text⟩
  | e => e.notice?

end Entry

end BoundaryTag
