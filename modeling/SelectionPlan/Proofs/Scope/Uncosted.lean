import SelectionPlan.Scope.Basic
import SelectionPlan.Proofs.Triple

/-!
# Scopes without costs

What names mean does not depend on cost hints: the scopes of a tree without hints are those of the
tree, without hints.
-/

namespace SelectionPlan

/-! ### Trees -/

def Variable.uncosted (v : Variable) : Variable := { v with cost := none }

def Attachment.uncosted (a : Attachment) : Attachment := { a with filter := a.filter.uncosted }

def Node.uncosted (n : Node) : Node :=
  { n with
    attachment := n.attachment.map Attachment.uncosted
    ownVariables := n.ownVariables.map Variable.uncosted }

def SelectionTree.uncosted (t : SelectionTree) : SelectionTree :=
  { t with nodes := t.nodes.map Node.uncosted }

namespace Variable

variable (v : Variable)

@[simp] theorem uncosted_name : v.uncosted.name = v.name := rfl

@[simp] theorem uncosted_overridden : v.uncosted.overridden = v.overridden := rfl

@[simp] theorem uncosted_spec (s : Systematic) : v.uncosted.spec s = v.spec s := rfl

@[simp] theorem uncosted_specs : v.uncosted.specs = v.specs := rfl

@[simp] theorem uncosted_allInputs : v.uncosted.allInputs = v.allInputs := rfl

@[simp] theorem uncosted_resolve (s : Systematic) (physical : String → Option String)
    (location : String) :
    v.uncosted.resolve s physical location = v.resolve s physical location := rfl

end Variable

namespace Node

variable (n : Node)

@[simp] theorem uncosted_parent : n.uncosted.parent = n.parent := by
  rw [parent, uncosted, Option.map_map]
  rfl

@[simp] theorem uncosted_filter : n.uncosted.filter = n.filter.map Variable.uncosted := by
  rw [filter, uncosted, Option.map_map, filter, Option.map_map]
  rfl

end Node

namespace SelectionTree

variable (t : SelectionTree)

@[simp] theorem getElem?_uncosted (i : Nat) :
    t.uncosted.nodes[i]? = t.nodes[i]?.map Node.uncosted :=
  List.getElem?_map

@[simp] theorem uncosted_size : t.uncosted.size = t.size := List.length_map _

private theorem bind_uncosted {α : Type} {f : Node → Option α} (hf : ∀ n, f n.uncosted = f n)
    (i : Nat) : t.uncosted.nodes[i]?.bind f = t.nodes[i]?.bind f := by
  rw [getElem?_uncosted]
  cases t.nodes[i]? with
  | none => rfl
  | some n => exact hf n

@[simp] theorem uncosted_parent? (i : Nat) : t.uncosted.parent? i = t.parent? i :=
  t.bind_uncosted Node.uncosted_parent i

theorem bind_label_uncosted (i : Nat) :
    t.uncosted.nodes[i]?.bind Node.label = t.nodes[i]?.bind Node.label :=
  t.bind_uncosted (fun _ => rfl) i

theorem ownVariables_uncosted (i : Nat) : (t.uncosted.nodes[i]?.map Node.ownVariables).getD [] =
    ((t.nodes[i]?.map Node.ownVariables).getD []).map Variable.uncosted := by
  rw [getElem?_uncosted]
  cases t.nodes[i]? <;> rfl

@[simp] theorem uncosted_nameOf (i : Nat) : t.uncosted.nameOf i = t.nameOf i := by
  simp only [nameOf, getElem?_uncosted, Option.map_map]
  rfl

@[simp] theorem uncosted_path (i : Nat) : t.uncosted.path i = t.path i := by
  have hwithin (bound i : Nat) : t.uncosted.pathWithin bound i = t.pathWithin bound i := by
    induction bound generalizing i with
    | zero => rfl
    | succ bound ih => simp only [pathWithin, uncosted_parent?, ih]
  exact hwithin i i

@[simp] theorem uncosted_pathText (i : Nat) : t.uncosted.pathText i = t.pathText i := by
  rw [pathText, uncosted_path, funext t.uncosted_nameOf]
  rfl

@[simp] theorem uncosted_preorder : t.uncosted.preorder = t.preorder := by
  have hchildren (i : Nat) : t.uncosted.children i = t.children i := by
    simp only [children, uncosted_size, uncosted_parent?]
  have hwithin (bound i : Nat) : t.uncosted.preorderWithin bound i = t.preorderWithin bound i := by
    induction bound generalizing i with
    | zero => rfl
    | succ bound ih => rw [preorderWithin, preorderWithin, hchildren, funext ih]
  rw [preorder, preorder, uncosted_size, hwithin]

@[simp] theorem uncosted_weight (i : Nat) : t.uncosted.weight i = t.weight i := by
  simp only [weight, uncosted_path, t.bind_uncosted (f := Node.weight) fun _ => rfl]

@[simp] theorem uncosted_contains (n : NodeId) : t.uncosted.contains n = t.contains n := by
  simp only [contains, uncosted_size]
  rfl

end SelectionTree

/-! ### Scopes -/

def Column.uncosted (c : Column) : Column := { c with declared := c.declared.uncosted }

def Scope.uncosted (scope : Scope) : Scope := scope.map Column.uncosted

def Place.uncosted (p : Place) : Place :=
  { p with filter := p.filter.map Variable.uncosted, scope := p.scope.uncosted }

def ScopeIndex.uncosted (index : ScopeIndex) : ScopeIndex :=
  ⟨index.tree.uncosted, index.places.map Place.uncosted⟩

namespace Scope

variable (scope : Scope)

@[simp] theorem uncosted_lookup (name : String) :
    scope.uncosted.lookup name = (scope.lookup name).map Column.uncosted :=
  List.find?_map

@[simp] theorem uncosted_require (name reader path : String) :
    scope.uncosted.require name reader path =
      (scope.require name reader path).map Column.uncosted := by
  rw [require, require, uncosted_lookup]
  cases scope.lookup name <;> rfl

@[simp] theorem uncosted_reach (own inputs : List String) (reader path : String) :
    scope.uncosted.reach own inputs reader path = scope.reach own inputs reader path := by
  simp only [reach, uncosted_require, bind_map]
  rfl

theorem uncosted_declare (path : String) (node : Nat) (entry : Variable × Nat) :
    declare path node scope.uncosted (entry.1.uncosted, entry.2) =
      (declare path node scope entry).map uncosted := by
  obtain ⟨v, slot⟩ := entry
  simp only [declare, Variable.uncosted_overridden, Variable.uncosted_allInputs,
    Variable.uncosted_name, uncosted_reach, uncosted_lookup, Option.isSome_map, map_bind]
  congr 1
  funext affects
  split <;> rfl

end Scope

namespace SelectionTree

variable (t : SelectionTree)

theorem uncosted_placeBelow (scope : Scope) (chain : List String) (i : Nat) :
    t.uncosted.placeBelow scope.uncosted chain i =
      (t.placeBelow scope chain i).map Place.uncosted := by
  simp only [placeBelow, getElem?_uncosted, uncosted_pathText]
  cases t.nodes[i]? with
  | none => rfl
  | some n =>
      have hown : n.uncosted.ownVariables.zipIdx =
          n.ownVariables.zipIdx.map fun entry => (entry.1.uncosted, entry.2) := by
        rw [Node.uncosted, List.zipIdx_map]
        rfl
      have hdeclared := foldlM_translate
        (fun scope entry => Scope.uncosted_declare scope (t.pathText i) i entry)
        n.ownVariables.zipIdx scope
      simp only [Option.map_some, hown, hdeclared, bind_map, map_bind, Scope.uncosted_reach,
        Node.uncosted_filter, Node.uncosted_parent, Option.map_map]
      rfl

theorem uncosted_placeAlong (scope : Scope) (chain : List String) (path : List Nat) :
    t.uncosted.placeAlong scope.uncosted chain path =
      (t.placeAlong scope chain path).map Place.uncosted := by
  induction path generalizing scope chain with
  | nil => rfl
  | cons i rest ih =>
      cases rest with
      | nil => exact t.uncosted_placeBelow scope chain i
      | cons j rest =>
          simp only [placeAlong, uncosted_placeBelow, bind_map, map_bind]
          exact congrArg _ (funext fun p => ih p.scope p.chain)

@[simp] theorem uncosted_place (i : Nat) :
    t.uncosted.place i = (t.place i).map Place.uncosted := by
  rw [place, place, uncosted_path]
  exact t.uncosted_placeAlong [] [] (t.path i)

end SelectionTree

namespace ScopeIndex

theorem build_uncosted (t : SelectionTree) :
    build t.uncosted = (build t).map ScopeIndex.uncosted := by
  have hplaces : t.preorder.mapM t.uncosted.place =
      (t.preorder.mapM t.place).map (List.map Place.uncosted) := by
    have h := mapM_translate (h := id) fun i (_ : i ∈ t.preorder) => t.uncosted_place i
    rwa [List.map_id] at h
  simp only [build, SelectionTree.uncosted_preorder, hplaces, bind_map, map_bind]
  rfl

variable (index : ScopeIndex)

@[simp] theorem uncosted_place? (i : Nat) :
    index.uncosted.place? i = (index.place? i).map Place.uncosted :=
  List.find?_map

@[simp] theorem uncosted_known (p : Place) : index.uncosted.known p.uncosted = index.known p := by
  simp only [known, Place.uncosted, Scope.uncosted, List.foldr_map]
  rfl

@[simp] theorem uncosted_allSystematics :
    index.uncosted.allSystematics = index.allSystematics := by
  have hnode (n : Node) :
      (n.uncosted.filter.toList ++ n.uncosted.ownVariables).flatMap Variable.overridden =
        (n.filter.toList ++ n.ownVariables).flatMap Variable.overridden := by
    rw [Node.uncosted_filter, Option.toList_map]
    simp only [Node.uncosted, ← List.map_append, List.flatMap_map, Variable.uncosted_overridden]
  simp only [allSystematics, uncosted, SelectionTree.uncosted, List.flatMap_map, hnode]

end ScopeIndex
end SelectionPlan
