import BoundaryTag.Source

/-!
# Arena — what a mapping is made of

A mapping has all its bytes from the start, and a break in front of those that are not in use yet.
To grow is to move the break, and what the region then shows of the mapping is whatever is there.

* `Arena` is a mapping with its break. `Arena.map` has none of its bytes in use, `Arena.grow` moves
  the break, and `Arena.store` and `Arena.edit` write below it. A heap can be laid out in an arena.
* `Region.front` and `Region.upTo` are the first bytes of a region.
* `Source.Step` is what can be done to a source and `Source.Reply` what comes of it.
  `Source.observe` carries out one step after the other and keeps every reply, each with the bytes
  in use.
* `Source.trace` and `Arena.trace` are what is seen of a source and of an arena, and
  `Source.contract` what must be seen if so many bytes can be held. `Source.after` and `Arena.after`
  are what the steps leave.
-/

namespace BoundaryTag

namespace Region

/-- The first `n` bytes, which is all of a region that can be seen. -/
def upTo (r : Region) (n : Nat) : List UInt8 := (List.range n).map r.byte

theorem size_slice_lt (r : Region) (a n : Nat) : (r.slice a n).size < bound := by
  have := r.bounded
  rw [slice, ByteArray.size_extract]
  omega

def front (r : Region) (n : Nat) : Region := ⟨r.slice 0 n, r.size_slice_lt 0 n⟩

theorem size_front {r : Region} {n : Nat} (h : n ≤ r.size) : (r.front n).size = n :=
  size_slice (by omega)

theorem byte_front {r : Region} {n : Nat} (h : n ≤ r.size) (i : Nat) :
    (r.front n).byte i = if i < n then r.byte i else 0 := by
  split
  case isTrue hi =>
    rw [byte_eq_getElem?, front, getElem?_slice hi, Nat.zero_add]
  case isFalse hi => exact byte_of_size_le ((size_front h).symm ▸ Nat.not_lt.1 hi)

end Region

namespace Source

/-! ## Steps -/

/-- What can be done to a source. -/
inductive Step where
  | grow (bytes : Nat)
  /-- Lay bytes over those in use, from an address on. -/
  | store (addr : Nat) (bytes : ByteArray)

inductive Reply where
  /-- The address of the first new byte, if there are any. -/
  | grown (base : Option Nat)
  /-- Whether all of the bytes were in use. If not then nothing was written. -/
  | stored (inside : Bool)
  deriving DecidableEq

/-- Carry out steps, and keep each reply with the bytes in use after it. -/
def observe {σ : Type} (act : σ → Step → σ × Reply) (memory : σ → List UInt8) (s : σ) :
    List Step → List (Reply × List UInt8)
  | [] => []
  | step :: steps =>
    match act s step with
    | (t, reply) => (reply, memory t) :: observe act memory t steps

/-! ## Sources -/

def memory (s : Source) : List UInt8 := s.region.upTo s.region.size

def act (s : Source) : Step → Source × Reply
  | .grow bytes =>
    match s.grow bytes with
    | some (t, base) => (t, .grown (some base))
    | none => (s, .grown none)
  | .store addr bytes =>
    match s.region.store addr bytes with
    | .ok r => ({ s with region := r }, .stored true)
    | .error _ => (s, .stored false)

def trace (s : Source) (steps : List Step) : List (Reply × List UInt8) := observe act memory s steps

def after (s : Source) (steps : List Step) : Source := steps.foldl (fun t step => (t.act step).1) s

/-! ## The contract -/

/-- What a source that can hold `capacity` bytes must do in a step. To grow is to put zeros at the
end, and the answer is the old length. A source that cannot grow so far stays as it is. -/
def required (capacity : Nat) (mem : List UInt8) : Step → List UInt8 × Reply
  | .grow bytes =>
    if mem.length + bytes ≤ capacity then
      (mem ++ List.replicate bytes 0, .grown (some mem.length))
    else
      (mem, .grown none)
  | .store addr bytes =>
    if addr + bytes.size ≤ mem.length then
      (mem.take addr ++ bytes.data.toList ++ mem.drop (addr + bytes.size), .stored true)
    else
      (mem, .stored false)

/-- What must be seen of a source that can hold `capacity` bytes and begins with `mem`. -/
def contract (capacity : Nat) (mem : List UInt8) (steps : List Step) : List (Reply × List UInt8) :=
  observe (required capacity) id mem steps

end Source

/-! ## Mappings -/

/-- All bytes of a mapping, and how many of them are in use. -/
structure Arena where
  cells : Region
  brk : Nat
  within : brk ≤ cells.size

namespace Arena

/-- A new mapping, whatever its bytes are. -/
def map (cells : Region) : Arena := ⟨cells, 0, Nat.zero_le _⟩

def memory (a : Arena) : List UInt8 := a.cells.upTo a.brk

def region (a : Arena) : Region := a.cells.front a.brk

/-- Move the break by `bytes` bytes, if the sum is a 64-bit number and not past the end. The answer
holds the old break. -/
def grow (a : Arena) (bytes : Nat) : Option (Arena × Nat) :=
  if h : a.brk + bytes < 0x10000000000000000 ∧ a.brk + bytes ≤ a.cells.size then
    some (⟨a.cells, a.brk + bytes, h.2⟩, a.brk)
  else
    none

/-- Lay `bytes` over the bytes from `addr` on, all of which must be in use. -/
def store (a : Arena) (addr : Nat) (bytes : ByteArray) : Option Arena :=
  if addr + bytes.size ≤ a.brk then
    match h : a.cells.store addr bytes with
    | .ok r => some ⟨r, a.brk, Region.size_store h ▸ a.within⟩
    | .error _ => none
  else
    none

/-- Change the bytes in use where they are. There cannot be more of them afterwards. -/
def edit {α : Type} (a : Arena) (f : Region → Except Fault (Region × α)) :
    Except Fault (Arena × α) := do
  let (r, x) ← f a.region
  match a.store 0 r.bytes with
  | some b => return (b, x)
  | none => .error .outside

instance : Storage Arena := ⟨region, grow, edit⟩

def act (a : Arena) : Source.Step → Arena × Source.Reply
  | .grow bytes =>
    match a.grow bytes with
    | some (b, base) => (b, .grown (some base))
    | none => (a, .grown none)
  | .store addr bytes =>
    match a.store addr bytes with
    | some b => (b, .stored true)
    | none => (a, .stored false)

def trace (a : Arena) (steps : List Source.Step) : List (Source.Reply × List UInt8) :=
  Source.observe act memory a steps

def after (a : Arena) (steps : List Source.Step) : Arena :=
  steps.foldl (fun b step => (b.act step).1) a

end Arena

end BoundaryTag
