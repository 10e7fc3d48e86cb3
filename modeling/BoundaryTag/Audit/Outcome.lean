import BoundaryTag.Audit.Report
import BoundaryTag.Refusal
import BoundaryTag.Size

/-!
# Outcome — what comes of a request

What comes of a request for memory, by what an audit sees of the heap. It takes the blocks and the
end of the heap to tell, and how far the heap may grow, but not the order in which free blocks are
tried. That order decides which block it is.

* `Survey.growth` is the size by which a heap grows, or why it does not.
* `Survey.outcome` is what comes of a request.
* `Survey.Serves` says which block serves a request.
-/

namespace BoundaryTag

namespace Survey

/-- The size by which the heap grows for `bytes` bytes, in a region that may become `limit` bytes
long, or why it does not grow. -/
def growth (s : Survey) (limit bytes : Nat) : Except Refusal Nat :=
  match (alignUp bytes).filter (· ≤ maxBlock) with
  | none => .error (.tooLarge bytes)
  | some n =>
    if 0xffffffff < s.top + n - s.lo then
      .error (.offsetOverflow (s.top + n))
    else if limit < s.top + n then
      .error (.outOfMemory n)
    else
      .ok n

/-- By how many bytes the heap grows to serve a request for `size` bytes, or why the request is
refused. If a free block is large enough then the heap does not grow. -/
def outcome (s : Survey) (limit growFloor size : Nat) : Except Refusal Nat :=
  match (blockFor size).filter (· ≤ maxBlock) with
  | none => .error (.tooLarge size)
  | some need =>
    if ∃ b ∈ s.chain.blocks, b.isFree = true ∧ need ≤ b.tag.size then
      .ok 0
    else
      s.growth limit (max need growFloor)

/-- A block of `need` bytes is cut from the block at `a`: no block before it in its list is large
enough, no block of a lower class is, and its class is not below that of the size. -/
def Serves (s : Survey) (need a : Nat) : Prop :=
  ∃ t ∈ s.threads, ∃ before n after, t.nodes = before ++ n :: after ∧ n.addr = a
    ∧ need ≤ n.tag.size ∧ SizeClass.of need ≤ t.index
    ∧ (∀ m ∈ before, m.tag.size < need)
    ∧ (∀ u ∈ s.threads, u.index < t.index → ∀ m ∈ u.nodes, m.tag.size < need)
    ∧ ∀ b ∈ s.chain.blocks, b.isFree = true → SizeClass.of b.tag.size < t.index → b.tag.size < need

end Survey

end BoundaryTag
