import BoundaryTag.FreeLists.Placement
import BoundaryTag.Heap.Frame
import BoundaryTag.Source

/-!
# Heap — blocks at the top of a region

A heap fills the top of a region, from the address `lo` to the end:

```text
 lo                                                                     hi
 | pad | 120/a | 14 sentinels, 8 each | 120/a | blocks ...        | 0/a |
         '---------- prologue ------------'                    epilogue
```

The padding word keeps links apart from zero, the prologue is an allocated block that holds the
sentinels of the free lists, and the epilogue is the header of an empty allocated block. All state
is in the region, apart from the journal. `lo` is a multiple of eight, and so are the addresses of
all blocks. Any `Storage` will do for the region, and a `Source` is meant where none is named.
-/

namespace BoundaryTag

/-- How a heap grows. Both sizes are rounded up to block sizes when they are used. -/
structure Config where
  /-- The size of the first free block. -/
  initialChunk : Nat
  /-- The least number of bytes that a request adds when no free block fits it. -/
  growFloor : Nat
  deriving DecidableEq

def Config.default : Config := ⟨512, 128⟩

structure Heap (σ : Type := Source) where
  source : σ
  config : Config
  lo : Nat
  journal : List Entry
  aligned : lo % 8 = 0

namespace Heap

variable {σ : Type}

/-- The bytes of the heap, and those below it. -/
def region [Storage σ] (h : Heap σ) : Region := Storage.region h.source

/-- The prologue block, where the sentinels are. -/
def prologue (h : Heap σ) : Nat := h.lo + 8

def lists (h : Heap σ) : FreeLists := ⟨h.prologue, h.lo⟩

/-- The highest address of the heap. -/
def hi [Storage σ] (h : Heap σ) : Except Fault Nat := Address.sub h.region.size 1

def events (h : Heap σ) : List Event := h.journal.filterMap Entry.event?

def note (h : Heap σ) (e : Entry) : Heap σ := { h with journal := h.journal ++ [e] }

def noteEvents (h : Heap σ) (es : List Event) : Heap σ :=
  { h with journal := h.journal ++ es.map .event }

/-- Change the bytes. The heap is taken apart first, as a source is by `Source.edit`. -/
def edit [Storage σ] {α : Type} (h : Heap σ) (f : Region → Except Fault (Region × α)) :
    Except Fault (Heap σ × α) :=
  match h with
  | ⟨source, config, lo, journal, aligned⟩ => do
    let (source, a) ← Storage.edit source f
    return (⟨source, config, lo, journal, aligned⟩, a)

def perform [Storage σ] (h : Heap σ) (f : Region → Except Fault (Region × List Event)) :
    Except Fault (Heap σ) := do
  let (h, es) ← h.edit f
  return h.noteEvents es

def record [Storage σ] (h : Heap σ) (style : Style) : Record :=
  let config : Record := ⟨"HeapConfig",
    [("initial_chunk", toString h.config.initialChunk),
     ("grow_floor", toString h.config.growFloor)]⟩
  ⟨"Heap",
    [("lo", toString h.lo), ("len", toString h.region.size),
     ("prologue", toString h.prologue), ("config", config.render style)]⟩

end Heap

end BoundaryTag
