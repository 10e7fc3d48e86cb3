import BoundaryTag.Log
import BoundaryTag.Region
import BoundaryTag.Size

/-!
# Source — where the bytes come from

A source holds the region that a heap manages and lets it grow up to a limit. The region may hold
bytes before a heap is laid out in it. There are two kinds of source, which differ in how they
come by their limit and by new bytes:

* a buffer has any limit and makes room when it grows, which fails for a region that is longer
  than any buffer can be;
* a mapping reserves whole pages of zeros from the start, which can fail, and only moves its end.

`Source.Admits` is the rule of each kind for growth, and `Source.grow` adds zero bytes by it.
A heap knows a source by what `Storage` lists, and `Kernel` is what a mapping depends on.
-/

namespace BoundaryTag

/-- What a heap asks of whatever holds its bytes. -/
class Storage (σ : Type) where
  /-- The bytes in use. -/
  region : σ → Region
  /-- Add so many zero bytes at the top. The answer holds the address of the first of them. -/
  grow : σ → Nat → Option (σ × Nat)
  edit {α : Type} : σ → (Region → Except Fault (Region × α)) → Except Fault (σ × α)

/-- What an operating system says when it is asked about memory. -/
structure Kernel where
  /-- The size of a page, or no positive number if that is not known. -/
  sysconf : Int64
  /-- Whether so many bytes are mapped. -/
  grants : Nat → Bool
  /-- No mapping is too long for a region. -/
  bounded : ∀ n, grants n = true → n < Region.bound

namespace Kernel

def pageSize (k : Kernel) : Nat := if k.sysconf ≤ 0 then 4096 else k.sysconf.toNatClampNeg

/-- Pages of 4096 bytes, and addresses of 48 bits. -/
def amd64 : Kernel where
  sysconf := 4096
  grants n := n < 0x1000000000000
  bounded _ h := Nat.lt_trans (of_decide_eq_true h) (by decide)

end Kernel

inductive Source.Kind where
  | buffer
  | mapping
  deriving DecidableEq

/-- A region and how far it may grow. -/
structure Source where
  kind : Source.Kind
  region : Region
  limit : Nat
  granted : kind = .mapping → limit < Region.bound

namespace Source

/-- The limit of a buffer for which none is given. -/
def defaultLimit : Nat := 20 * 1024 * 1024

/-- The longest buffer there can be. -/
def maxBuffer : Nat := 0x7fffffffffffffff

def buffer (limit : Nat) : Source := ⟨.buffer, .empty, limit, nofun⟩

inductive MappingFailure where
  /-- No capacity was asked for. -/
  | empty
  /-- The capacity cannot be rounded up to whole pages. -/
  | overflow
  /-- So many bytes are not granted. -/
  | refused (capacity : Nat)
  deriving DecidableEq

/-- An empty mapping that can hold `capacity` bytes, rounded up to whole pages by clearing the bits
that count bytes within a page. -/
def mapping (k : Kernel) (capacity : Nat) : Except MappingFailure Source :=
  let last := k.pageSize - 1
  if capacity + last < 0x10000000000000000 then
    let rounded := (capacity + last) &&& (0xffffffffffffffff ^^^ last)
    if rounded = 0 then
      .error .empty
    else if h : k.grants rounded = true then
      .ok ⟨.mapping, .empty, rounded, fun _ => k.bounded rounded h⟩
    else
      .error (.refused rounded)
  else
    .error .overflow

def MappingFailure.log : MappingFailure → List LogRecord
  | refused capacity => [⟨.debug, "mmap of " ++ toString capacity ++ " bytes failed"⟩]
  | _ => []

/-- Whether the region may become `size` bytes long. -/
def Admits (s : Source) (size : Nat) : Prop :=
  match s.kind with
  | .buffer => size ≤ s.limit ∧ size ≤ maxBuffer
  | .mapping => size ≤ s.limit

instance (s : Source) (size : Nat) : Decidable (s.Admits size) := by
  unfold Admits
  split <;> infer_instance

theorem Admits.lt_bound {s : Source} {size : Nat} (h : s.Admits size) : size < Region.bound := by
  unfold Admits at h
  split at h
  case h_1 => exact Nat.lt_of_le_of_lt h.2 (by decide)
  case h_2 hk => exact Nat.lt_of_le_of_lt h (s.granted hk)

/-- A buffer that is not too long may be filled. -/
theorem admits_buffer {s : Source} (hkind : s.kind = .buffer) (hlimit : s.limit ≤ maxBuffer)
    (size : Nat) : s.Admits size ↔ size ≤ s.limit := by
  unfold Admits
  rw [hkind]
  exact ⟨fun h => h.1, fun h => ⟨h, Nat.le_trans h hlimit⟩⟩

/-- Add `bytes` zero bytes at the top, if the source admits them. The answer holds the address of
the first of them. -/
def grow (s : Source) (bytes : Nat) : Option (Source × Nat) :=
  if h : s.Admits (s.region.size + bytes) then
    some ({ s with region := s.region.extend bytes h.lt_bound }, s.region.size)
  else
    none

/-- Change the bytes. The source is taken apart first, so that its region has no other owner while
`f` works on it. -/
def edit {α : Type} (s : Source) (f : Region → Except Fault (Region × α)) :
    Except Fault (Source × α) :=
  match s with
  | ⟨kind, region, limit, granted⟩ => do
    let (r, a) ← f region
    return (⟨kind, r, limit, granted⟩, a)

instance : Storage Source := ⟨region, grow, edit⟩

@[simp] theorem storage_region (s : Source) : Storage.region s = s.region := rfl

@[simp] theorem storage_grow (s : Source) (bytes : Nat) : Storage.grow s bytes = s.grow bytes := rfl

@[simp] theorem storage_edit {α : Type} (s : Source) (f : Region → Except Fault (Region × α)) :
    Storage.edit s f = s.edit f := rfl

/-- A buffer as a record. A mapping does not show its bytes. -/
def record? (s : Source) : Option Record :=
  match s.kind with
  | .buffer =>
    some ⟨"VecSource", [("mem", bytesText s.region.bytes), ("max_len", toString s.limit)]⟩
  | .mapping => none

end Source

end BoundaryTag
