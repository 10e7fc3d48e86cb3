import BoundaryTag.Client
import BoundaryTag.Plan.Basic

/-!
# Run — calls to a plan

What the calls of a client do to a plan, and what they return.

* `Plan.step` carries out a call.
* `Plan.run` carries out one call after the other.
-/

namespace BoundaryTag

namespace Plan

/-- The pointer that was handed out, and none if the request was refused. -/
def granted : Except Refusal (Option Nat) → Option Nat
  | .ok a => a
  | .error _ => none

/-- Carry out a call. Payloads are not part of a plan, so nothing comes of writing them. -/
def step (p : Plan) (config : Config) (admits : Nat → Bool) : Call → Plan × Answer × List Event
  | .allocate size =>
    match p.allocate config admits size with
    | (q, answer, events) => (q, .pointer (granted answer), events)
  | .tryAllocate size =>
    match p.allocate config admits size with
    | (q, .ok a, events) => (q, .pointer a, events)
    | (q, .error e, events) => (q, .refused e, events)
  | .allocateZeroed count size =>
    if count * size < 0x10000000000000000 then
      match p.allocate config admits (count * size) with
      | (q, answer, events) => (q, .pointer (granted answer), events)
    else
      (p, .pointer none, [])
  | .free none => (p, .done, [])
  | .free (some a) =>
    match p.free a with
    | (q, events) => (q, .done, events)
  | .resize a size =>
    match p.resize config admits a size with
    | (q, b, events) => (q, .pointer b, events)
  | .write _ _ _ => (p, .done, [])

def run (p : Plan) (config : Config) (admits : Nat → Bool) :
    List Call → Plan × List Answer × List Event
  | [] => (p, [], [])
  | call :: calls =>
    match p.step config admits call with
    | (q, answer, events) =>
      match q.run config admits calls with
      | (q, answers, more) => (q, answer :: answers, events ++ more)

end Plan

end BoundaryTag
