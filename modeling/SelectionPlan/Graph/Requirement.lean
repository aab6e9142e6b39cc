import SelectionPlan.Graph.Planner
/-!
# Required selections

Which selections some regions need, and on which systematics, is settled before any action is
created.  A region asks for the selections from its node up to the root, as far as they have not
been asked for yet.
-/

namespace SelectionPlan

/-- A selection by the position of its node in preorder and the systematic it runs on. -/
structure SelectionKey where
  position : Nat
  chain : Systematic
  deriving DecidableEq, Repr

namespace SelectionKey

instance : LT SelectionKey :=
  ⟨fun a b => a.position < b.position ∨ a.position = b.position ∧ a.chain < b.chain⟩

instance : DecidableLT SelectionKey := fun a b =>
  inferInstanceAs
    (Decidable (a.position < b.position ∨ a.position = b.position ∧ a.chain < b.chain))

def chainsAt (required : List SelectionKey) (position : Nat) : List Systematic :=
  let rest := required.dropWhile fun key => decide (key < ⟨position, .nominal⟩)
  (rest.takeWhile fun key => key.position == position).map SelectionKey.chain

end SelectionKey

namespace ScopeIndex

/-- Requires the selection of a node under `s` and, with the systematic in effect there, those of
at most `bound` nodes above it.  Above a selection that is required already everything is. -/
def requireWithin (index : ScopeIndex) (bound node : Nat) (s : Systematic)
    (required : List SelectionKey) : Except BuildError (List SelectionKey) :=
  match index.place? node with
  | none => .error .foreignNode
  | some place =>
    match place.parent, place.filter with
    | some parent, some _ =>
      let chain := place.chainUnder s
      match index.position? node with
      | none => .error .foreignNode
      | some position =>
        if ⟨position, chain⟩ ∈ required then .ok required
        else
          match bound with
          | 0 => .ok (insertDistinct ⟨position, chain⟩ required)
          | bound + 1 =>
            index.requireWithin bound parent chain (insertDistinct ⟨position, chain⟩ required)
    | _, _ => .ok required

/-- Requires the selections from a node up to the root.  Parents have lower numbers. -/
def requireSelections (index : ScopeIndex) (node : Nat) (s : Systematic)
    (required : List SelectionKey) : Except BuildError (List SelectionKey) :=
  index.requireWithin node node s required

def requirements (index : ScopeIndex) (regions : List AcceptedRegion) :
    Except BuildError (List SelectionKey) :=
  regions.foldlM (fun required r =>
    r.systematics.foldlM (fun required s => index.requireSelections r.place.node s required)
      required) []

end ScopeIndex
end SelectionPlan
