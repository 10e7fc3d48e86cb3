/-!
# Extent — blocks without bytes

The blocks of a heap without their bytes: sizes that follow one another from a start address, each
in use or free.

* `Extent.merge` joins neighbouring free extents, so that between any two of them lies one in use.
* `Extent.replaceAt` puts other extents in the place of the one at an address.
* `Extent.vacate` marks the extents at some addresses as free.
* `Extent.find?` and `Extent.covering?` look extents up by address.
-/

namespace BoundaryTag

/-- A block by its size and whether it is in use. -/
structure Extent where
  size : Nat
  allocated : Bool
  deriving DecidableEq

namespace Extent

/-- The address just past the extents that start at `a`. -/
def stop (a : Nat) : List Extent → Nat
  | [] => a
  | e :: es => stop (a + e.size) es

/-- The extents that start at `a`, each with its address. -/
def located (a : Nat) : List Extent → List (Nat × Extent)
  | [] => []
  | e :: es => (a, e) :: located (a + e.size) es

def find? (x : Nat) (a : Nat) (es : List Extent) : Option Extent := (located a es).lookup x

/-- The address and size of the extent that has the byte at `x`. -/
def covering? (x : Nat) (a : Nat) : List Extent → Option (Nat × Nat)
  | [] => none
  | e :: es =>
    if a ≤ x ∧ x < a + e.size then some (a, e.size) else covering? x (a + e.size) es

/-- Put `new` in the place of the extent at `x`. -/
def replaceAt (x : Nat) (new : List Extent) (a : Nat) : List Extent → List Extent
  | [] => []
  | e :: es => if a = x then new ++ es else e :: replaceAt x new (a + e.size) es

/-- Join an extent with the one after it if both are free. -/
def join (e : Extent) : List Extent → List Extent
  | [] => [e]
  | f :: es =>
    if e.allocated = false ∧ f.allocated = false then
      ⟨e.size + f.size, false⟩ :: es
    else
      e :: f :: es

def merge (es : List Extent) : List Extent := es.foldr join []

/-- Mark the extents at the addresses `xs` as free. -/
def vacate (xs : List Nat) (a : Nat) : List Extent → List Extent
  | [] => []
  | e :: es => ⟨e.size, e.allocated && decide (a ∉ xs)⟩ :: vacate xs (a + e.size) es

end Extent

end BoundaryTag
