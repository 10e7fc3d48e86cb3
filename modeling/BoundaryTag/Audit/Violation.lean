import BoundaryTag.Log

/-!
# Violation — the rules that can be broken

The rules of a heap that an audit can find broken, each with the addresses and sizes that show it.
-/

namespace BoundaryTag

inductive Violation where
  /-- The prologue is not an allocated block of its size. -/
  | badPrologue (addr expected : Nat)
  /-- The headers do not end in an allocated block of size zero at the very top. -/
  | badEpilogue (addr : Nat)
  | misaligned (addr align : Nat)
  | badSize (addr size : Nat)
  | blockOutOfBounds (addr : Nat)
  /-- The two tags of a free block, or of the prologue, differ. -/
  | footerMismatch (addr : Nat) (header footer : UInt32)
  | adjacentFree (addr next : Nat)
  /-- A header is wrong about the block before it. -/
  | stalePrevFree (addr : Nat) (recorded : Bool)
  | listOutOfBounds (index addr : Nat)
  | allocatedInList (index addr : Nat)
  | wrongClass (index addr size : Nat)
  | notABlock (index addr : Nat)
  /-- A block of a list does not link back to the one it was reached from. -/
  | linkMismatch (index addr expected : Nat) (found : Option Nat)
  /-- A list leads to a block that some list has led to before. -/
  | cycle (index addr : Nat)
  /-- The free blocks are not as many as the blocks in lists. -/
  | countMismatch (inHeap inLists : Nat)
  deriving DecidableEq

namespace Violation

def message : Violation → String
  | badPrologue addr expected =>
    "bad prologue at " ++ hexAddr addr ++ ": expected an allocated block of "
      ++ toString expected ++ " bytes"
  | badEpilogue addr =>
    "bad epilogue at " ++ hexAddr addr
      ++ ": the block chain must end with an allocated zero-size block at the top of the heap"
  | misaligned addr align =>
    "block " ++ hexAddr addr ++ " is not " ++ toString align ++ "-byte aligned"
  | badSize addr size =>
    "block " ++ hexAddr addr ++ " has size " ++ toString size
      ++ ", which is not a multiple of 8 of at least the minimum block size"
  | blockOutOfBounds addr =>
    "block " ++ hexAddr addr ++ " extends past the top of the heap"
  | footerMismatch addr header footer =>
    "block " ++ hexAddr addr ++ " has header " ++ hexAddr header.toNat ++ " but footer "
      ++ hexAddr footer.toNat
  | adjacentFree addr next =>
    "free blocks " ++ hexAddr addr ++ " and " ++ hexAddr next
      ++ " are adjacent and were not coalesced"
  | stalePrevFree addr recorded =>
    "block " ++ hexAddr addr ++ " has a stale prev-free bit (recorded: " ++ toString recorded
      ++ ")"
  | listOutOfBounds index addr =>
    "size class " ++ toString index ++ " links to " ++ hexAddr addr
      ++ ", which is outside the heap"
  | allocatedInList index addr =>
    "size class " ++ toString index ++ " holds " ++ hexAddr addr ++ ", which is allocated"
  | wrongClass index addr size =>
    "size class " ++ toString index ++ " holds " ++ hexAddr addr ++ " of size " ++ toString size
      ++ ", which belongs to another class"
  | notABlock index addr =>
    "size class " ++ toString index ++ " holds " ++ hexAddr addr
      ++ ", which is not a block of the heap"
  | linkMismatch index addr expected found =>
    hexAddr addr ++ " follows " ++ hexAddr expected ++ " in size class " ++ toString index
      ++ " but links back to " ++ optionText found
  | cycle index addr => "size class " ++ toString index ++ " loops back to " ++ hexAddr addr
  | countMismatch inHeap inLists =>
    toString inHeap ++ " free blocks in the heap but " ++ toString inLists
      ++ " in the size-class lists"

def record : Violation → Record
  | badPrologue addr expected =>
    ⟨"BadPrologue", [("addr", toString addr), ("expected", toString expected)]⟩
  | badEpilogue addr => ⟨"BadEpilogue", [("addr", toString addr)]⟩
  | misaligned addr align =>
    ⟨"Misaligned", [("addr", toString addr), ("align", toString align)]⟩
  | badSize addr size => ⟨"BadSize", [("addr", toString addr), ("size", toString size)]⟩
  | blockOutOfBounds addr => ⟨"BlockOutOfBounds", [("addr", toString addr)]⟩
  | footerMismatch addr header footer =>
    ⟨"FooterMismatch", [("addr", toString addr), ("header", toString header.toNat),
      ("footer", toString footer.toNat)]⟩
  | adjacentFree addr next =>
    ⟨"AdjacentFree", [("addr", toString addr), ("next", toString next)]⟩
  | stalePrevFree addr recorded =>
    ⟨"StalePrevFree", [("addr", toString addr), ("recorded", toString recorded)]⟩
  | listOutOfBounds index addr =>
    ⟨"ListOutOfBounds", [("class", toString index), ("addr", toString addr)]⟩
  | allocatedInList index addr =>
    ⟨"AllocatedInList", [("class", toString index), ("addr", toString addr)]⟩
  | wrongClass index addr size =>
    ⟨"WrongClass", [("class", toString index), ("addr", toString addr),
      ("size", toString size)]⟩
  | notABlock index addr =>
    ⟨"NotABlock", [("class", toString index), ("addr", toString addr)]⟩
  | linkMismatch index addr expected found =>
    ⟨"LinkMismatch", [("class", toString index), ("addr", toString addr),
      ("expected", toString expected), ("found", optionText found)]⟩
  | cycle index addr => ⟨"Cycle", [("class", toString index), ("addr", toString addr)]⟩
  | countMismatch inHeap inLists =>
    ⟨"CountMismatch", [("in_heap", toString inHeap), ("in_lists", toString inLists)]⟩

def warning (v : Violation) : LogRecord := ⟨.warn, "heap check: " ++ v.message⟩

end Violation

end BoundaryTag
