import BoundaryTag.Client
import BoundaryTag.Plan.Extent

/-!
# Ledger — a heap rebuilt from its events

Whoever sees the events of a heap and the pointers in calls and answers can keep a ledger of its
blocks without looking at the heap. Every event must fit what the ledger says by then, and the
replay stops at one that does not.

* `Ledger.follow` enters an event, and `Ledger.followAll` one after the other.
* `Ledger.grant` and `Ledger.release` enter a pointer that was returned or freed.
* `Ledger.record` enters a call with its answer and its events, and `Ledger.replay` one after the
  other.
* `Ledger.opening` begins a ledger with the events of a new heap.
* `Client.transcript` carries out calls and keeps what a ledger needs.
-/

namespace BoundaryTag

/-! ## Extents -/

namespace Extent

/-- Change the extents from the one at `x` on. There must be one. -/
def editAt (x : Nat) (f : List Extent → Option (List Extent)) (a : Nat) :
    List Extent → Option (List Extent)
  | [] => none
  | e :: es => if a = x then f (e :: es) else (editAt x f (a + e.size) es).map (e :: ·)

/-- Cut a free extent in two and take the front into use. -/
def cut (placed rest : Nat) : List Extent → Option (List Extent)
  | [] => none
  | e :: es =>
    if e = ⟨placed + rest, false⟩ then some (⟨placed, true⟩ :: ⟨rest, false⟩ :: es) else none

/-- Make one of the two or three free extents in front that have `size` bytes together. -/
def fuse (size : Nat) : List Extent → Option (List Extent)
  | ⟨b, false⟩ :: ⟨c, false⟩ :: ⟨d, false⟩ :: es =>
    if b + c = size then
      some (⟨size, false⟩ :: ⟨d, false⟩ :: es)
    else if b + c + d = size then
      some (⟨size, false⟩ :: es)
    else
      none
  | ⟨b, false⟩ :: ⟨c, false⟩ :: es => if b + c = size then some (⟨size, false⟩ :: es) else none
  | _ => none

/-- Take an extent into use that is not, or the other way round. -/
def turn (allocated : Bool) : List Extent → Option (List Extent)
  | [] => none
  | e :: es => if e.allocated = allocated then none else some (⟨e.size, allocated⟩ :: es)

end Extent

/-! ## Events -/

namespace Event

/-- The event cuts the block at `a`. -/
def splits (a : Nat) : Event → Bool
  | split block _ _ => block = a
  | _ => false

/-- The event joins blocks up to one that has the byte at `a`. -/
def covers (a : Nat) : Event → Bool
  | coalesce block size => block ≤ a ∧ a < block + size
  | _ => false

end Event

/-- A call with what it returned and the events that it caused. -/
structure Turn where
  call : Call
  answer : Answer
  events : List Event

def Answer.granted : Answer → Option Nat
  | pointer p => p
  | _ => none

/-! ## Ledgers -/

/-- The blocks of a heap, as its events tell. -/
structure Ledger where
  start : Nat
  extents : List Extent
  deriving DecidableEq

namespace Ledger

def top (l : Ledger) : Nat := Extent.stop l.start l.extents

def edit (l : Ledger) (x : Nat) (f : List Extent → Option (List Extent)) : Option Ledger :=
  (Extent.editAt x f l.start l.extents).map fun es => ⟨l.start, es⟩

/-- Enter an event. New bytes come as a free block at the end. What is split is a free block of just
the size of both parts, and what is joined are two or three free blocks. -/
def follow (l : Ledger) : Event → Option Ledger
  | .grow base bytes =>
    if base = l.top then some ⟨l.start, l.extents ++ [⟨bytes, false⟩]⟩ else none
  | .split block placed rest => l.edit block (Extent.cut placed rest)
  | .coalesce block size => l.edit block (Extent.fuse size)

def followAll (l : Ledger) (events : List Event) : Option Ledger := events.foldlM follow l

/-- Enter a pointer that was returned. If its block was not split, all of it comes into use. -/
def grant (l : Ledger) (events : List Event) : Option Nat → Option Ledger
  | none => some l
  | some a => if events.any (Event.splits a) then some l else l.edit a (Extent.turn true)

def release (l : Ledger) (a : Nat) : Option Ledger := l.edit a (Extent.turn false)

/-- Enter a call. What is freed becomes free before the events, and what is returned comes into use
after them. A payload that moves leaves its old block in between: after the events of the new block
and before the old one is joined with its neighbours. -/
def record (l : Ledger) (t : Turn) : Option Ledger :=
  match t.call, t.answer with
  | .free (some a), _ => do
    let l ← l.release a
    l.followAll t.events
  | .resize (some a) 0, _ => do
    let l ← l.release a
    l.followAll t.events
  | .resize (some a) _, .pointer (some b) => do
    let own := t.events.takeWhile fun e => !e.covers a
    let l ← l.followAll own
    let l ← l.grant own (some b)
    let l ← l.release a
    l.followAll (t.events.dropWhile fun e => !e.covers a)
  | _, answer => do
    let l ← l.followAll t.events
    l.grant t.events answer.granted

def replay (l : Ledger) (turns : List Turn) : Option Ledger := turns.foldlM record l

/-- Begin a ledger with the events of a heap that was laid out in a source of `top` bytes. The first
of them adds the padding and the frame. -/
def opening (top : Nat) : List Event → Option Ledger
  | .grow base bytes :: events => do
    let lo ← alignUp top
    if base = top ∧ bytes = lo - top + frameSize then
      followAll ⟨base + bytes, []⟩ events
    else
      none
  | _ => none

end Ledger

/-- Carry out calls one after the other, and keep what each of them returned and caused. -/
def Client.transcript (c : Client) : List Call → Except Fault (Client × List Turn)
  | [] => return (c, [])
  | call :: calls => do
    let (d, answer) ← c.step call
    let (e, turns) ← d.transcript calls
    return (e, ⟨call, answer, d.heap.events.drop c.heap.events.length⟩ :: turns)

end BoundaryTag
