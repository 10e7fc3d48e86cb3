import BoundaryTag.Client

/-!
# Pair — two clients side by side

Two clients make the same calls, each with its own pointers, and write what they like into their
payloads in between.

* `Client.watch` carries out calls and keeps what is seen after each of them that is not a write.
* `Client.Paired` says that the calls of two clients are the same, writes apart.
-/

namespace BoundaryTag

def Call.isWrite : Call → Bool
  | .write _ _ _ => true
  | _ => false

/-- What is seen after a call: what it returned, all events so far, and the whole heap but for its
payloads. -/
structure Sight where
  answer : Answer
  events : List Event
  audit : Audit
  deriving DecidableEq

namespace Client

/-- Carry out calls one after the other, and keep what is seen after those that are not writes. -/
def watch (c : Client) : List Call → Except Fault (Client × List Sight)
  | [] => return (c, [])
  | call :: calls => do
    let (d, answer) ← c.step call
    let audit ← d.heap.audit
    let (e, sights) ← d.watch calls
    return (e, if call.isWrite then sights else ⟨answer, d.heap.events, audit⟩ :: sights)

/-- Two pointers that are live at the same place, or none. -/
def SamePlace (c d : Client) : Option Nat → Option Nat → Prop
  | none, none => True
  | some a, some b => ∃ i : Nat, c.pointers[i]? = some a ∧ d.pointers[i]? = some b
  | _, _ => False

/-- The same call of two clients, each with its own pointer. It is not a write. -/
inductive Alike (c d : Client) : Call → Call → Prop where
  | allocate (size : Nat) : Alike c d (.allocate size) (.allocate size)
  | tryAllocate (size : Nat) : Alike c d (.tryAllocate size) (.tryAllocate size)
  | allocateZeroed (count size : Nat) :
      Alike c d (.allocateZeroed count size) (.allocateZeroed count size)
  | free {p q : Option Nat} (same : c.SamePlace d p q) : Alike c d (.free p) (.free q)
  | resize {p q : Option Nat} (size : Nat) (same : c.SamePlace d p q) :
      Alike c d (.resize p size) (.resize q size)

/-- Two clients make the same calls, and writes in between as each of them likes. -/
inductive Paired : Client → Client → List Call → List Call → Prop where
  | done {c d : Client} : Paired c d [] []
  | left {c d : Client} {p start : Nat} {bytes : ByteArray} {calls calls' : List Call}
      (rest : ∀ e answer, c.step (.write p start bytes) = .ok (e, answer) →
        Paired e d calls calls') : Paired c d (.write p start bytes :: calls) calls'
  | right {c d : Client} {p start : Nat} {bytes : ByteArray} {calls calls' : List Call}
      (rest : ∀ e answer, d.step (.write p start bytes) = .ok (e, answer) →
        Paired c e calls calls') : Paired c d calls (.write p start bytes :: calls')
  | both {c d : Client} {call call' : Call} {calls calls' : List Call}
      (alike : c.Alike d call call')
      (rest : ∀ c' d' answer answer', c.step call = .ok (c', answer) →
        d.step call' = .ok (d', answer') → Paired c' d' calls calls') :
      Paired c d (call :: calls) (call' :: calls')

end Client

end BoundaryTag
