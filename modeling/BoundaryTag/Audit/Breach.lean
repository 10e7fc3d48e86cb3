import BoundaryTag.Audit.Violation
import BoundaryTag.Heap.Basic
import Mathlib.Data.Set.Card
import Mathlib.Logic.Relation

/-!
# Breach — what breaks a rule

What it takes for a heap to break a rule, said of its words, whatever these are. A heap has two
kinds of walk: one over headers, each of which tells where the next one is, and one along the links
of each list. Most rules are about a place that a walk comes to, and about what comes just before.

* `Region.Comes` is the walk over headers, and `Region.Breaks` are the rules for where it comes.
* `FreeLists.Comes` is the walk through a list, and `FreeLists.Breaks` are the rules for where it
  leads. A walk goes to no address twice, nor to one where another list leads that comes earlier.
* `Heap.Breaks` are all rules, those about the prologue and the number of free blocks included.
-/

namespace BoundaryTag

/-- A place in a walk over headers, and the block just before. For the first place that is the
prologue, which does not count. -/
structure Position where
  before : Option Nat
  addr : Nat

namespace Region

/-- The block at an address has a size, and lies in the region. -/
def Fits (r : Region) (x : Nat) : Prop :=
  (r.tagAt x).size ≠ 0 ∧ x + (r.tagAt x).size ≤ r.size

def freeBefore (r : Region) (p : Position) : Bool :=
  p.before.any fun y => !(r.tagAt y).allocated

def behind (r : Region) (p : Position) : Position :=
  ⟨some p.addr, p.addr + (r.tagAt p.addr).size⟩

/-- From one place to the next, behind a block that lies in the region. -/
def Onward (r : Region) (p q : Position) : Prop := r.Fits p.addr ∧ q = r.behind p

/-- The places to which a walk over headers comes that starts at `bp`. -/
def Comes (r : Region) (bp : Nat) (p : Position) : Prop :=
  Relation.ReflTransGen r.Onward ⟨none, bp⟩ p

/-- The walk that starts at `bp` comes through a free block. -/
def FreeBlock (r : Region) (bp x : Nat) : Prop :=
  ∃ p, r.Comes bp p ∧ p.addr = x ∧ r.Fits x ∧ (r.tagAt x).allocated = false

/-- The rules that are broken where a walk over headers comes. -/
inductive Breaks (r : Region) (p : Position) : Violation → Prop where
  | stalePrevFree (stale : (r.tagAt p.addr).prevFree ≠ r.freeBefore p) :
      Breaks r p (.stalePrevFree p.addr (r.tagAt p.addr).prevFree)
  | badSize (nonempty : (r.tagAt p.addr).size ≠ 0) (small : (r.tagAt p.addr).size < minBlock) :
      Breaks r p (.badSize p.addr (r.tagAt p.addr).size)
  | footerMismatch (fits : r.Fits p.addr) (free : (r.tagAt p.addr).allocated = false)
      (differ : r.word (p.addr + (r.tagAt p.addr).size - 8) ≠ (r.tagAt p.addr).word) :
      Breaks r p (.footerMismatch p.addr (r.tagAt p.addr).word
        (r.word (p.addr + (r.tagAt p.addr).size - 8)))
  | adjacentFree {y : Nat} (before : p.before = some y) (freeBefore : (r.tagAt y).allocated = false)
      (fits : r.Fits p.addr) (free : (r.tagAt p.addr).allocated = false) :
      Breaks r p (.adjacentFree y p.addr)
  | badEpilogue (empty : (r.tagAt p.addr).size = 0)
      (wrong : (r.tagAt p.addr).allocated = false ∨ p.addr ≠ r.size) :
      Breaks r p (.badEpilogue p.addr)
  | blockOutOfBounds (nonempty : (r.tagAt p.addr).size ≠ 0)
      (past : r.size < p.addr + (r.tagAt p.addr).size) : Breaks r p (.blockOutOfBounds p.addr)

end Region

namespace FreeLists

/-- There is room for two links at an address of a heap at `lo`. -/
def Inside (r : Region) (lo a : Nat) : Prop := lo + 8 ≤ a ∧ a + 8 ≤ r.size

/-- The links of the list of a class lead to an address, as far as they stay in the heap. -/
inductive LeadsTo (l : FreeLists) (r : Region) (lo index : Nat) : Nat → Prop where
  | first {a : Nat} (link : l.links.linkAt r (l.sentinelAt index + 4) = some a)
      (inside : Inside r lo a) : LeadsTo l r lo index a
  | next {a b : Nat} (leads : LeadsTo l r lo index a) (link : l.links.linkAt r (a + 4) = some b)
      (inside : Inside r lo b) : LeadsTo l r lo index b

/-- Where a walk through a list is that has come through the blocks of `path`, the last of them
first: at the sentinel, if there are none. -/
def last (l : FreeLists) (index : Nat) (path : List Nat) : Nat :=
  path.headD (l.sentinelAt index)

def onward (l : FreeLists) (r : Region) (index : Nat) (path : List Nat) : Option Nat :=
  l.links.linkAt r (l.last index path + 4)

/-- An address is in the walk already, or an earlier list leads there. -/
def Seen (l : FreeLists) (r : Region) (lo index : Nat) (path : List Nat) (a : Nat) : Prop :=
  a ∈ path ∨ ∃ j < index, l.LeadsTo r lo j a

def GoesTo (l : FreeLists) (r : Region) (lo index : Nat) (path : List Nat) (a : Nat) : Prop :=
  l.onward r index path = some a ∧ Inside r lo a ∧ ¬ l.Seen r lo index path a

def Onward (l : FreeLists) (r : Region) (lo index : Nat) (path path' : List Nat) : Prop :=
  ∃ a, l.GoesTo r lo index path a ∧ path' = a :: path

/-- The walks through the list of a class. -/
def Comes (l : FreeLists) (r : Region) (lo index : Nat) (path : List Nat) : Prop :=
  Relation.ReflTransGen (l.Onward r lo index) [] path

/-- The rules that are broken where a list leads, in a heap at `lo` whose free blocks are `Free`. -/
inductive Breaks (l : FreeLists) (r : Region) (lo : Nat) (Free : Nat → Prop) (index : Nat)
    (path : List Nat) : Violation → Prop where
  | listOutOfBounds {a : Nat} (link : l.onward r index path = some a) (out : ¬ Inside r lo a) :
      Breaks l r lo Free index path (.listOutOfBounds index a)
  | cycle {a : Nat} (link : l.onward r index path = some a) (inside : Inside r lo a)
      (seen : l.Seen r lo index path a) : Breaks l r lo Free index path (.cycle index a)
  | linkMismatch {a : Nat} (goes : l.GoesTo r lo index path a)
      (unanswered : l.links.linkAt r a ≠ some (l.last index path)) :
      Breaks l r lo Free index path
        (.linkMismatch index a (l.last index path) (l.links.linkAt r a))
  | allocatedInList {a : Nat} (goes : l.GoesTo r lo index path a)
      (allocated : (r.tagAt a).allocated = true) :
      Breaks l r lo Free index path (.allocatedInList index a)
  | notABlock {a : Nat} (goes : l.GoesTo r lo index path a)
      (unallocated : (r.tagAt a).allocated = false) (unknown : ¬ Free a) :
      Breaks l r lo Free index path (.notABlock index a)
  | wrongClass {a : Nat} (goes : l.GoesTo r lo index path a)
      (unallocated : (r.tagAt a).allocated = false) (free : Free a)
      (other : SizeClass.of (r.tagAt a).size ≠ index) :
      Breaks l r lo Free index path (.wrongClass index a (r.tagAt a).size)

end FreeLists

namespace Heap

/-- The rules that a heap with a sound prologue breaks. -/
inductive Breaks (h : Heap) : Violation → Prop where
  | prologue
      (differ : h.region.word (h.lo + prologueSize) ≠ (h.region.tagAt h.prologue).word) :
      Breaks h (.footerMismatch h.prologue (h.region.tagAt h.prologue).word
        (h.region.word (h.lo + prologueSize)))
  | chain {p : Position} {v : Violation} (comes : h.region.Comes (h.lo + frameSize) p)
      (breaks : h.region.Breaks p v) : Breaks h v
  | list {index : Nat} {path : List Nat} {v : Violation} (known : index < SizeClass.count)
      (comes : h.lists.Comes h.region h.lo index path)
      (breaks : h.lists.Breaks h.region h.lo (h.region.FreeBlock (h.lo + frameSize)) index path v) :
      Breaks h v
  | count {m n : Nat} (inHeap : Set.ncard {x | h.region.FreeBlock (h.lo + frameSize) x} = m)
      (inLists : Set.ncard {x | ∃ j < SizeClass.count, h.lists.LeadsTo h.region h.lo j x} = n)
      (differ : m ≠ n) : Breaks h (.countMismatch m n)

end Heap

end BoundaryTag
