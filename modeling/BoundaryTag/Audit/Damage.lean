import BoundaryTag.Audit.Report

/-!
# Damage — single words that are wrong

Changes of single words that an audit can tell, because other words say the same or say what does
not go with it.

* `Survey.Guarded` are the addresses of the links that the links on the other side answer, and of
  the footers, which repeat a header.
* `Survey.Headed` are the blocks that have a header, and `Tag.flip` turns its flags over.
* `Heap.overwrite` writes a word wherever it may be.
-/

namespace BoundaryTag

/-- The tag with one flag turned over, or both. -/
def Tag.flip (t : Tag) (allocated prevFree : Bool) : Tag :=
  ⟨UInt32.ofNat (t.word.toNat / 4 * 4 + (xor t.allocated allocated).toNat
    + 2 * (xor t.prevFree prevFree).toNat)⟩

namespace Survey

/-- The word at an address can be told from what other words say. -/
inductive Guarded (s : Survey) : Nat → Prop where
  /-- The link from the sentinel of a class onwards. -/
  | first {index : Nat} (known : index < SizeClass.count) :
      Guarded s (s.prologue + index * sentinelSize + linkSize)
  /-- The link of a free block back. -/
  | back {b : ChainBlock} (mem : b ∈ s.chain.blocks) (free : b.isFree = true) : Guarded s b.addr
  /-- The link of a free block onwards. -/
  | next {b : ChainBlock} (mem : b ∈ s.chain.blocks) (free : b.isFree = true) :
      Guarded s (b.addr + linkSize)
  /-- The footer of a free block. -/
  | footer {b : ChainBlock} (mem : b ∈ s.chain.blocks) (free : b.isFree = true) :
      Guarded s (b.addr + b.tag.size - 8)
  | prologue : Guarded s (s.prologue + prologueSize - 8)

/-- The header before an address is that of the prologue, of a block or of the epilogue. -/
inductive Headed (s : Survey) : Nat → Prop where
  | prologue : Headed s s.prologue
  | block {b : ChainBlock} (mem : b ∈ s.chain.blocks) : Headed s b.addr
  | epilogue : Headed s s.top

end Survey

def Heap.overwrite (h : Heap) (a : Nat) (w : UInt32) : Heap :=
  { h with source := { h.source with region := h.region.setWord a w } }

end BoundaryTag
