/-!
# Fault — why an operation on a region stops

An operation on a region follows addresses that are stored in the region itself. A `Fault` is the
reason why such an operation cannot go on: the bytes that it needs are not there, an address
leaves the machine's range, or a rule that the operation relies on does not hold.

* `Fault.require` turns a condition into a step of an operation.
* A step without a fault hands its result to the next (`ok_bind`, `bind_eq_ok`).
* `Address.add` and `Address.sub` are the arithmetic of 64-bit addresses, which is plain arithmetic
  as long as the result is in range (`Address.add_eq`, `Address.sub_eq`).
-/

namespace BoundaryTag

inductive Fault where
  /-- Bytes beyond the end of the region were asked for. -/
  | outside
  | overflow
  | underflow
  /-- A size that no tag can hold. -/
  | badSize (size : Nat)
  /-- An address that no link can hold. -/
  | badLink (addr : Nat)
  | badClass (index : Nat)
  /-- A block that should be in a list has nothing before it. -/
  | unlinked (addr : Nat)
  | notFree (addr : Nat)
  | tooSmall (addr : Nat)
  /-- New bytes did not start at the end of the old ones. -/
  | displaced (addr : Nat)
  /-- A list that is searched leads back into itself. -/
  | endless
  deriving DecidableEq

namespace Fault

/-- Go on if `c` holds, and stop with `f` otherwise. -/
def require (c : Prop) [Decidable c] (f : Fault) : Except Fault Unit :=
  if c then .ok () else .error f

theorem require_eq {c : Prop} [Decidable c] (f : Fault) (h : c) : require c f = .ok () :=
  if_pos h

@[simp] theorem pure_eq_ok {α : Type} (a : α) : (pure a : Except Fault α) = .ok a := rfl

@[simp] theorem ok_bind {α β : Type} (a : α) (f : α → Except Fault β) :
    (Except.ok a >>= f) = f a := rfl

@[simp] theorem error_bind {α β : Type} (e : Fault) (f : α → Except Fault β) :
    (Except.error e >>= f) = .error e := rfl

@[simp] theorem map_ok {α β : Type} (g : α → β) (a : α) :
    (g <$> (Except.ok a : Except Fault α)) = .ok (g a) := rfl

/-- A run of two steps that comes through has come through the first. -/
theorem bind_eq_ok {α β : Type} {x : Except Fault α} {f : α → Except Fault β} {b : β} :
    (x >>= f) = .ok b ↔ ∃ a, x = .ok a ∧ f a = .ok b := by
  cases x <;> simp

theorem toOption_eq_some {α : Type} {x : Except Fault α} {a : α} :
    x.toOption = some a ↔ x = .ok a := by
  cases x <;> simp [Except.toOption]

end Fault

namespace Address

/-- The largest 64-bit number. -/
def last : Nat := 0xffffffffffffffff

/-- Stop unless `n` is a 64-bit number. -/
def fits (n : Nat) : Except Fault Unit := Fault.require (n < 0x10000000000000000) .overflow

def add (a b : Nat) : Except Fault Nat :=
  if a + b < 0x10000000000000000 then .ok (a + b) else .error .overflow

def sub (a b : Nat) : Except Fault Nat :=
  if b ≤ a then .ok (a - b) else .error .underflow

theorem fits_eq {n : Nat} (h : n < 0x10000000000000000) : fits n = .ok () :=
  if_pos h

theorem add_eq {a b : Nat} (h : a + b < 0x10000000000000000) : add a b = .ok (a + b) :=
  if_pos h

theorem sub_eq {a b : Nat} (h : b ≤ a) : sub a b = .ok (a - b) :=
  if_pos h

end Address

end BoundaryTag
