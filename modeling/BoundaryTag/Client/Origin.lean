import BoundaryTag.Client

/-!
# Origin — where a live pointer comes from

A live pointer was returned by some call for a request of so many bytes, and has been live since.
The block for it was cut from a free block, which the search had found or growth had made.

* `Call.request` is what a call asks for.
* `Heap.CutFrom` is the heap whose free block serves a request.
* `Client.Retains` are the states that calls lead to during which a pointer stays live.
* `Client.Obtained` puts them together.
-/

namespace BoundaryTag

def Call.request : Call → Option Nat
  | .allocate size => some size
  | .tryAllocate size => some size
  | .allocateZeroed count size => some (count * size)
  | .resize _ size => some size
  | _ => none

/-- A request for a block of `need` bytes is served by the free block at `a` of the second heap.
This is the heap as it is if the search finds a block, and otherwise the heap after growth, when
what was added has merged with a free block before it. -/
inductive Heap.CutFrom (h : Heap) (need a : Nat) : Heap → Prop where
  | found (hfit : h.lists.firstFit h.region need = .ok (some a)) : h.CutFrom need a h
  | grown {g : Heap} (hnone : h.lists.firstFit h.region need = .ok none)
      (hext : h.extend (max need h.config.growFloor) = .ok (g, .ok a)) : h.CutFrom need a g

namespace Client

/-- The states that calls by the rules lead to while the pointer `p` stays live. -/
inductive Retains (c : Client) (p : Nat) : Client → Prop where
  | here (live : p ∈ c.pointers) : c.Retains p c
  | step {d e : Client} {call : Call} {answer : Answer} (kept : c.Retains p d)
      (allowed : d.Allows call) (done : d.step call = .ok (e, answer)) (live : p ∈ e.pointers) :
      c.Retains p e

/-- The pointer `p` was returned for a request of `size` bytes and has been live since. Its block,
for which `need` bytes were needed, was cut from a free block of `room` bytes. -/
def Obtained (source : Source) (config : Config) (p size need room : Nat) (e : Client) : Prop :=
  ∃ (c d : Client) (call : Call) (g : Heap) (s : Survey) (b : ChainBlock),
    Reaches source config c ∧ c.Allows call ∧ call.request = some size
      ∧ c.step call = .ok (d, .pointer (some p)) ∧ d.Retains p e
      ∧ c.heap.CutFrom need p g ∧ g.audit = .ok (.survey s)
      ∧ b ∈ s.chain.blocks ∧ b.isFree = true ∧ b.addr = p ∧ b.tag.size = room

end Client

end BoundaryTag
