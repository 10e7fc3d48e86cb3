import BoundaryTag.Audit.Chain
import BoundaryTag.Audit.Thread
import BoundaryTag.Heap.Basic

/-!
# Audit — looking at all of a heap

An audit looks at all of a heap, whatever its region holds, and reports every broken rule. It
walks the chain of blocks, follows the threads of the free lists, and compares the two. Without a
sound prologue it has nothing to start from and reports only that.

* `Heap.audit` reads, and changes nothing.
* `Audit.violations` lists the broken rules in the order in which they are met.
* `Audit.dump` is what the log shows of the heap.
-/

namespace BoundaryTag

/-- What a heap with a sound prologue looks like. -/
structure Survey where
  lo : Nat
  top : Nat
  prologue : Nat
  tag : Tag
  footer : UInt32
  chain : Chain
  threads : List Thread
  deriving DecidableEq

inductive Audit where
  /-- The prologue at `prologue` is not one. -/
  | rootless (prologue : Nat)
  | survey (s : Survey)
  deriving DecidableEq

namespace Survey

/-- The number of blocks in lists. -/
def listed (s : Survey) : Nat := (s.threads.flatMap Thread.nodes).length

/-- The two tags of the prologue must agree. -/
def prologueViolations (s : Survey) : List Violation :=
  if s.footer = s.tag.word then [] else [.footerMismatch s.prologue s.tag.word s.footer]

/-- There must be as many free blocks as blocks in lists. -/
def countViolations (s : Survey) : List Violation :=
  if s.chain.freeBlocks.length = s.listed then
    []
  else
    [.countMismatch s.chain.freeBlocks.length s.listed]

def violations (s : Survey) : List Violation :=
  s.prologueViolations ++ s.chain.violations s.top s.prologue
    ++ s.threads.flatMap (Thread.violations · s.chain.freeBlocks) ++ s.countViolations

def dump (s : Survey) : List String :=
  ("heap " ++ hexAddr s.lo ++ ".." ++ hexAddr s.top ++ ":")
    :: (s.chain.dump ++ s.threads.flatMap Thread.dump)

end Survey

namespace Audit

/-- All broken rules, in the order in which they are met. -/
def violations : Audit → List Violation
  | rootless prologue => [.badPrologue prologue prologueSize]
  | survey s => s.violations

def dump : Audit → List LogRecord
  | rootless _ => []
  | survey s => s.dump.map (⟨.debug, ·⟩)

/-- What the log says about an audit that is asked to be `verbose`. -/
def log (a : Audit) (verbose : Bool) : List LogRecord :=
  if verbose then a.dump else []

def warnings (a : Audit) : List LogRecord := a.violations.map Violation.warning

end Audit

namespace Heap

variable {σ : Type} [Storage σ]

def audit (h : Heap σ) : Except Fault Audit := do
  let r := h.region
  let t ← r.header h.prologue
  if t.size = prologueSize ∧ t.allocated then
    let footer ← r.read (h.prologue + prologueSize - 8)
    let chain ← r.chain (h.prologue + prologueSize)
    let threads ← h.lists.threads r h.lo
    return .survey ⟨h.lo, r.size, h.prologue, t, footer, chain, threads⟩
  else
    return .rootless h.prologue

def check (h : Heap σ) : Except Fault (List Violation) := do
  return (← h.audit).violations

/-- The first broken rule of a heap. -/
def validate (h : Heap σ) : Except Fault (Option Violation) := do
  return (← h.check).head?

end Heap

end BoundaryTag
