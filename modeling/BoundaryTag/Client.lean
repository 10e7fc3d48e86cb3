import BoundaryTag.Audit.Report
import BoundaryTag.Heap.Allocation
import BoundaryTag.Heap.Layout
import BoundaryTag.Heap.Stats

/-!
# Client — calls that play by the rules

A client calls the operations of a heap and keeps the pointers that it was given. A pointer is
live from the call that returns it until it is freed or moved, and a client that plays by the
rules passes live pointers only and writes inside live payloads only.

* `Client.step` carries out a call.
* `Client.Allows` says which calls play by the rules.
* `Client.Reaches` are the states that such calls lead to from a new heap.
* `Client.perform` carries out one call after the other, and `Client.Plays` says which calls play by
  the rules then.
-/

namespace BoundaryTag

inductive Call where
  | allocate (size : Nat)
  | tryAllocate (size : Nat)
  | allocateZeroed (count size : Nat)
  | free (p : Option Nat)
  | resize (p : Option Nat) (size : Nat)
  /-- Write bytes into a payload, from the byte with number `start` on. -/
  | write (p start : Nat) (bytes : ByteArray)

inductive Answer where
  | pointer (p : Option Nat)
  | refused (reason : Refusal)
  | done
  deriving DecidableEq

/-- A heap, and the live pointers with the sizes that were asked for. -/
structure Client (σ : Type := Source) where
  heap : Heap σ
  live : List (Nat × Nat)

namespace Client

variable {σ : Type}

def pointers (c : Client σ) : List Nat := c.live.map Prod.fst

/-- Add a pointer that was returned for a request of `size` bytes. -/
def keep (live : List (Nat × Nat)) (p : Option Nat) (size : Nat) : List (Nat × Nat) :=
  match p with
  | none => live
  | some a => (a, size) :: live

def forget (live : List (Nat × Nat)) (p : Option Nat) : List (Nat × Nat) :=
  live.filter fun x => some x.1 ≠ p

def step [Storage σ] (c : Client σ) : Call → Except Fault (Client σ × Answer)
  | .allocate size => do
    let (h, p) ← c.heap.allocate size
    return (⟨h, keep c.live p size⟩, .pointer p)
  | .tryAllocate size => do
    match ← c.heap.tryAllocate size with
    | (h, .ok p) => return (⟨h, keep c.live p size⟩, .pointer p)
    | (h, .error e) => return (⟨h, c.live⟩, .refused e)
  | .allocateZeroed count size => do
    let (h, p) ← c.heap.allocateZeroed count size
    return (⟨h, keep c.live p (count * size)⟩, .pointer p)
  | .free p => do
    let h ← c.heap.free p
    return (⟨h, forget c.live p⟩, .done)
  | .resize p size => do
    let (h, q) ← c.heap.resize p size
    let moved := size = 0 ∨ q.isSome
    return (⟨h, keep (if moved then forget c.live p else c.live) q size⟩, .pointer q)
  | .write p start bytes => do
    let (h, _) ← c.heap.writePayload p start bytes
    return (⟨h, c.live⟩, .done)

/-- A pointer that may be passed to a heap. -/
def Owns (c : Client) (p : Option Nat) : Prop := ∀ a, p = some a → a ∈ c.pointers

def Allows (c : Client) : Call → Prop
  | .free p => c.Owns p
  | .resize p _ => c.Owns p
  | .write p start bytes =>
    c.Owns (some p) ∧ ∃ n, c.heap.usableSize p = .ok n ∧ start + bytes.size ≤ n
  | _ => True

/-- The states that calls by the rules lead to from a heap that was just laid out. -/
inductive Reaches (s : Source) (config : Config) : Client → Prop where
  | start {h : Heap} (laidOut : Heap.layOut s config = .ok (.ok h)) : Reaches s config ⟨h, []⟩
  | step {c d : Client} {call : Call} {answer : Answer} (reached : Reaches s config c)
      (allowed : c.Allows call) (done : c.step call = .ok (d, answer)) : Reaches s config d

def perform [Storage σ] (c : Client σ) : List Call → Except Fault (Client σ × List Answer)
  | [] => return (c, [])
  | call :: calls => do
    let (c, answer) ← c.step call
    let (c, answers) ← c.perform calls
    return (c, answer :: answers)

/-- Every one of the calls plays by the rules after those before it. -/
def Plays (c : Client) : List Call → Prop
  | [] => True
  | call :: calls =>
    c.Allows call ∧ ∀ d answer, c.step call = .ok (d, answer) → d.Plays calls

end Client

end BoundaryTag
