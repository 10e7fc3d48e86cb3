import BoundaryTag.Client

/-!
# Session — all that is seen of a heap

`Client.session` lays out a heap in a source, makes calls to it, by the rules or not, and tells all
that can be seen of it afterwards.
-/

namespace BoundaryTag

/-- What is seen of a heap after some calls: where it is, all its bytes, its journal, the live
pointers and what the calls have returned. -/
structure Session where
  lo : Nat
  region : Region
  journal : List Entry
  live : List (Nat × Nat)
  answers : List Answer

namespace Client

/-- Lay out a heap in a source and make calls to it. If there is no heap then the answer holds the
reason, and the bytes and the journal that are left. -/
def session {σ : Type} [Storage σ] (s : σ) (config : Config) (calls : List Call) :
    Except Fault (Except (Refusal × Region × List Entry) Session) := do
  match ← Heap.layOut s config with
  | .error e => return .error (e.reason, Storage.region e.source, e.journal)
  | .ok h => do
    let (c, answers) ← (⟨h, []⟩ : Client σ).perform calls
    return .ok ⟨c.heap.lo, c.heap.region, c.heap.journal, c.live, answers⟩

end Client

end BoundaryTag
