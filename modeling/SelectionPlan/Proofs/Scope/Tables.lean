import SelectionPlan.Proofs.Scope.Reach

/-!
# Names in tables

One walk through a tree in preorder notes the names that are visible at each node, the variations
that change each variable, and those that change the selection.  A node starts from what has been
noted for its parent, so no name is looked for further up than that.  The walk notes what the places
of an index hold, and where there is no index it fails with the same error.
-/

namespace SelectionPlan

inductive Site
  /-- Inside a variable, which sees those of the ancestors and the earlier ones of its node. -/
  | within (column : ColumnRef)
  /-- In the filter of a node or after it, where all variables of the node are seen. -/
  | after (node : Nat)

def Site.node : Site → Nat
  | .within c => c.node
  | .after node => node

/-- What a walk through a tree has noted so far. -/
structure NameTables where
  tree : SelectionTree
  /-- The position of every node in preorder. -/
  order : List (Nat × Nat) := []
  preorder : List Nat := []
  /-- The names that are visible after all variables of a node. -/
  visible : List (Nat × List (String × ColumnRef)) := []
  /-- The variations that change a variable, directly or through its inputs. -/
  affects : List (ColumnRef × List String) := []
  /-- The variations that change a filter on the way to a node. -/
  chain : List (Nat × List String) := []
  paths : List (Nat × String) := []

namespace NameTables

def position? (tables : NameTables) (node : Nat) : Option Nat := lookupKey node tables.order

def path (tables : NameTables) (node : Nat) : String :=
  (lookupKey node tables.paths).getD "<unknown>"

def visibleAt (tables : NameTables) (node : Nat) : List (String × ColumnRef) :=
  (lookupKey node tables.visible).getD []

def affectsOf (tables : NameTables) (c : ColumnRef) : List String :=
  (lookupKey c tables.affects).getD []

def chainAt (tables : NameTables) (node : Nat) : List String :=
  (lookupKey node tables.chain).getD []

def lastSlot? (name : String) (vs : List Variable) : Option Nat :=
  (vs.zipIdx.reverse.find? fun entry => entry.1.name == name).map Prod.snd

def lookup (tables : NameTables) (site : Site) (name : String) : Option ColumnRef :=
  match site with
  | .after node => lookupKey name (tables.visibleAt node)
  | .within c =>
    tables.tree.nodes[c.node]?.bind fun n =>
      ((lastSlot? name (n.ownVariables.take c.slot)).map (ColumnRef.mk c.node)).or
        (n.parent.bind fun parent => lookupKey name (tables.visibleAt parent))

/-- The variable that a name means to `reader` at a site; a name without one cannot be resolved. -/
def require (tables : NameTables) (site : Site) (name reader : String) :
    Except BuildError ColumnRef :=
  match tables.lookup site name with
  | some c => .ok c
  | none => .error (.unresolved name reader .nominal (tables.path site.node))

def reach (tables : NameTables) (site : Site) (own inputs : List String) (reader : String) :
    Except BuildError (List String) :=
  inputs.foldlM (fun reached input => do
    let c ← tables.require site input reader
    return unionDistinct (tables.affectsOf c) reached) own

def declare (node : Nat) (state : NameTables × List (String × ColumnRef))
    (entry : Variable × Nat) : Except BuildError (NameTables × List (String × ColumnRef)) := do
  let (tables, visible) := state
  let (v, slot) := entry
  let affects ← tables.reach (.within ⟨node, slot⟩) v.overridden v.allInputs v.name
  if (lookupKey v.name visible).isSome then
    throw (.naming (.duplicateDefinition v.name (tables.path node)))
  return ({ tables with affects := (⟨node, slot⟩, affects) :: tables.affects },
    (v.name, ⟨node, slot⟩) :: visible)

def enter (tables : NameTables) (node : Nat) : NameTables :=
  { tables with
    order := (node, tables.preorder.length) :: tables.order
    preorder := tables.preorder ++ [node]
    paths := (node, tables.tree.pathText node) :: tables.paths }

def visit (tables : NameTables) (node : Nat) : Except BuildError NameTables :=
  match tables.tree.nodes[node]? with
  | none => .error .foreignNode
  | some n => do
    let inherited := (n.parent.map tables.visibleAt).getD []
    let (declared, visible) ←
      n.ownVariables.zipIdx.foldlM (declare node) (tables.enter node, inherited)
    let named := { declared with visible := (node, visible) :: declared.visible }
    let own := (n.filter.map Variable.overridden).getD []
    let inputs := (n.filter.map Variable.allInputs).getD []
    let above := (n.parent.map named.chainAt).getD []
    let chain ← named.reach (.after node) (unionDistinct own above) inputs n.name
    return { named with chain := (node, chain) :: named.chain }

def build (t : SelectionTree) : Except BuildError NameTables :=
  t.preorder.foldlM visit { tree := t }

end NameTables

namespace Scope

def names (scope : Scope) : List (String × ColumnRef) := scope.map fun c => (c.name, c.ref)

theorem lookupKey_names (scope : Scope) (name : String) :
    lookupKey name scope.names = (scope.lookup name).map Column.ref := by
  rw [names, lookupKey_map]
  rfl

theorem exists_names_of_mem {scope : Scope} {c : Column} (hc : c ∈ scope) :
    (c.name, c.ref) ∈ scope.names := List.mem_map_of_mem hc

end Scope

namespace NameTables

def ownNames (node : Nat) (vs : List Variable) : List (String × ColumnRef) :=
  (vs.zipIdx.map fun entry => (entry.1.name, ⟨node, entry.2⟩)).reverse

theorem ownNames_take_succ {node slot : Nat} {vs : List Variable} {v : Variable}
    (hv : vs[slot]? = some v) : ownNames node (vs.take (slot + 1)) =
      (v.name, ⟨node, slot⟩) :: ownNames node (vs.take slot) := by
  have hlength : (vs.take slot).length = slot :=
    List.length_take_of_le (Nat.le_of_lt (List.getElem?_eq_some_iff.mp hv).1)
  rw [List.take_add_one, hv, Option.toList_some, ownNames, List.zipIdx_append, hlength]
  simp [ownNames]

theorem mem_ownNames {node : Nat} {vs : List Variable} {name : String} {c : ColumnRef} :
    (name, c) ∈ ownNames node vs ↔
      c.node = node ∧ (vs[c.slot]?).map Variable.name = some name := by
  simp only [ownNames, List.mem_reverse, List.mem_map, Prod.exists, Prod.mk.injEq,
    List.mem_zipIdx_iff_getElem?, Option.map_eq_some_iff]
  constructor
  · rintro ⟨v, slot, hv, rfl, rfl⟩
    exact ⟨rfl, v, hv, rfl⟩
  · rintro ⟨rfl, v, hv, rfl⟩
    exact ⟨v, c.slot, hv, rfl, rfl⟩

variable {tables : NameTables} {t : SelectionTree} {node : Nat}

theorem lookup_within {c : ColumnRef} {n : Node} (hn : tables.tree.nodes[c.node]? = some n)
    (name : String) : tables.lookup (.within c) name =
      lookupKey name (ownNames c.node (n.ownVariables.take c.slot) ++
        (n.parent.map tables.visibleAt).getD []) := by
  have hown : (lastSlot? name (n.ownVariables.take c.slot)).map (ColumnRef.mk c.node) =
      lookupKey name (ownNames c.node (n.ownVariables.take c.slot)) := by
    rw [ownNames, ← List.map_reverse, lookupKey_map, lastSlot?, Option.map_map]
    rfl
  rw [lookup, hn, Option.bind_some, hown, lookupKey_append]
  cases n.parent <;> rfl

theorem reach_eq {site : Site} {scope : Scope} {path : String}
    (hlookup : ∀ name, tables.lookup site name = (scope.lookup name).map Column.ref)
    (haffects : ∀ c ∈ scope, lookupKey c.ref tables.affects = some c.affects)
    (hpath : tables.path site.node = path) (own inputs : List String) (reader : String) :
    tables.reach site own inputs reader = scope.reach own inputs reader path := by
  refine foldlM_congr (fun input _ reached => ?_) own
  rw [require, Scope.require, hlookup]
  cases hscope : scope.lookup input with
  | none =>
      simp only [Option.map_none, hpath]
      rfl
  | some c =>
      have hc : tables.affectsOf c.ref = c.affects := by
        rw [affectsOf, haffects c (List.mem_of_find?_eq_some hscope), Option.getD_some]
      simp only [Option.map_some, ok_bind, hc]

structure Declared (entered : NameTables) (node : Nat) (own : List Variable) (above : Scope)
    (state : NameTables × List (String × ColumnRef)) (grown : Scope) : Prop where
  frame : state.1 = { entered with affects := state.1.affects }
  visible : state.2 = grown.names
  names : grown.names = ownNames node own ++ above.names
  affects : ∀ c ∈ grown, lookupKey c.ref state.1.affects = some c.affects
  others : ∀ c : ColumnRef, c.node ≠ node →
    lookupKey c state.1.affects = lookupKey c entered.affects

namespace Declared

variable {entered : NameTables} {own : List Variable} {above grown : Scope}
  {state : NameTables × List (String × ColumnRef)}

theorem ref_cases (h : Declared entered node own above state grown) {c : Column} (hc : c ∈ grown) :
    c.ref.node = node ∧ c.ref.slot < own.length ∨ ∃ d ∈ above, d.ref = c.ref := by
  have hnames := Scope.exists_names_of_mem hc
  rw [h.names, List.mem_append, mem_ownNames] at hnames
  rcases hnames with ⟨hnode, hslot⟩ | habove
  · obtain ⟨v, hv, -⟩ := Option.map_eq_some_iff.mp hslot
    exact .inl ⟨hnode, (List.getElem?_eq_some_iff.mp hv).1⟩
  · obtain ⟨d, hd, heq⟩ := List.mem_map.mp habove
    exact .inr ⟨d, hd, (Prod.mk.inj heq).2⟩

theorem step {n : Node} {slot : Nat} {v : Variable} (hn : entered.tree.nodes[node]? = some n)
    (habove : (n.parent.map entered.visibleAt).getD [] = above.names)
    (hfresh : ∀ c ∈ above, c.ref.node ≠ node) (hv : n.ownVariables[slot]? = some v)
    (h : Declared entered node (n.ownVariables.take slot) above state grown) :
    Alike Eq (Declared entered node (n.ownVariables.take (slot + 1)) above)
      (declare node state (v, slot)) (grown.declare (entered.path node) node (v, slot)) := by
  obtain ⟨tables, visible⟩ := state
  obtain ⟨noted, rfl⟩ : ∃ noted, tables = { entered with affects := noted } := ⟨_, h.frame⟩
  obtain rfl : visible = grown.names := h.visible
  have hlookup (name : String) :
      lookup { entered with affects := noted } (.within ⟨node, slot⟩) name =
        (grown.lookup name).map Column.ref := by
    have hinherited :
        (n.parent.map (visibleAt { entered with affects := noted })).getD [] = above.names := habove
    rw [lookup_within hn, hinherited, ← h.names, Scope.lookupKey_names]
  have hdup : (lookupKey v.name grown.names).isSome = (grown.lookup v.name).isSome := by
    rw [Scope.lookupKey_names, Option.isSome_map]
  have hpath : path { entered with affects := noted } node = entered.path node := rfl
  have hreach := reach_eq hlookup h.affects hpath v.overridden v.allInputs v.name
  simp only [declare, Scope.declare, hreach, hdup, hpath]
  cases grown.reach v.overridden v.allInputs v.name (entered.path node) with
  | error e => exact .error rfl
  | ok affects =>
      simp only [ok_bind]
      split
      · exact .error rfl
      · refine .ok ⟨?_, ?_, ?_, ?_, ?_⟩
        · rfl
        · rfl
        · rw [ownNames_take_succ hv, List.cons_append, ← h.names]
          rfl
        · intro c hc
          rcases List.mem_cons.mp hc with rfl | hc
          · exact if_pos rfl
          · have hne : (⟨node, slot⟩ : ColumnRef) ≠ c.ref := by
              intro heq
              rcases h.ref_cases hc with ⟨-, hlt⟩ | ⟨d, hd, hdc⟩
              · rw [← heq] at hlt
                exact absurd hlt (Nat.not_lt_of_le (List.length_take_le _ _))
              · exact hfresh d hd (by rw [hdc, ← heq])
            exact (if_neg hne).trans (h.affects c hc)
        · intro c hc
          have hne : (⟨node, slot⟩ : ColumnRef) ≠ c := fun heq => hc (by rw [← heq])
          exact (if_neg hne).trans (h.others c hc)

theorem run {n : Node} (hn : entered.tree.nodes[node]? = some n)
    (habove : (n.parent.map entered.visibleAt).getD [] = above.names)
    (hfresh : ∀ c ∈ above, c.ref.node ≠ node)
    (haffects : ∀ c ∈ above, lookupKey c.ref entered.affects = some c.affects) :
    Alike Eq (Declared entered node n.ownVariables above)
      (n.ownVariables.zipIdx.foldlM (declare node) (entered, above.names))
      (n.ownVariables.zipIdx.foldlM (Scope.declare (entered.path node) node) above) := by
  suffices hloop : Alike Eq
      (Declared entered node (n.ownVariables.take n.ownVariables.zipIdx.length) above)
      (n.ownVariables.zipIdx.foldlM (declare node) (entered, above.names))
      (n.ownVariables.zipIdx.foldlM (Scope.declare (entered.path node) node) above) by
    rwa [List.length_zipIdx, List.take_length] at hloop
  refine Alike.foldlM
    (I := fun done => Declared entered node (n.ownVariables.take done.length) above)
    ⟨rfl, rfl, rfl, haffects, fun _ _ => rfl⟩ ?_
  rintro done ⟨v, slot⟩ state grown ⟨rest, hsplit⟩ h
  have hget : n.ownVariables.zipIdx[done.length]? = some (v, slot) := by simp [← hsplit]
  rw [List.getElem?_zipIdx, Nat.zero_add] at hget
  obtain ⟨w, hw, heq⟩ := Option.map_eq_some_iff.mp hget
  cases heq
  rw [List.length_append, List.length_singleton]
  exact h.step hn habove hfresh hw

end Declared

/-! ### Places -/

section Fresh

variable {places : List Place} {p : Place} (hfresh : p.node ∉ places.map Place.node)
include hfresh

theorem find?_concat (node : Nat) : ((places ++ [p]).find? fun q => q.node = node) =
    if p.node = node then some p else places.find? fun q => q.node = node := by
  rw [List.find?_append]
  split
  · rename_i heq
    have hnone : (places.find? fun q => q.node = node) = none := by
      rw [List.find?_eq_none]
      rintro q hq hqn
      refine hfresh (List.mem_map.mpr ⟨q, hq, ?_⟩)
      rw [heq]
      simpa using hqn
    simp [hnone, heq]
  · rename_i hne
    simp [hne]

theorem findIdx?_fresh : (places.findIdx? fun q => q.node = p.node) = none := by
  rw [List.findIdx?_eq_none_iff]
  intro q hq
  refine decide_eq_false fun heq => hfresh (List.mem_map.mpr ⟨q, hq, heq⟩)

end Fresh

structure Tabulates (tables : NameTables) (t : SelectionTree) (places : List Place) : Prop where
  tree_eq : tables.tree = t
  preorder_eq : tables.preorder = places.map Place.node
  position_eq : ∀ node, tables.position? node = places.findIdx? fun p => p.node = node
  path_eq : ∀ node, lookupKey node tables.paths =
    (places.find? fun p => p.node = node).map Place.path
  visible_eq : ∀ node, lookupKey node tables.visible =
    (places.find? fun p => p.node = node).map fun p => p.scope.names
  chain_eq : ∀ node, lookupKey node tables.chain =
    (places.find? fun p => p.node = node).map Place.chain
  affects_eq : ∀ p ∈ places, ∀ c ∈ p.scope, lookupKey c.ref tables.affects = some c.affects
  /-- Columns belong to nodes that have been visited. -/
  home : ∀ p ∈ places, ∀ c ∈ p.scope, c.ref.node ∈ places.map Place.node

namespace Tabulates

variable {places : List Place} (h : Tabulates tables t places)
include h

theorem visibleAt_eq (parent : Option Nat) : (parent.map tables.visibleAt).getD [] =
    Scope.names (((parent.bind fun i => places.find? fun p => p.node = i).map
      Place.scope).getD []) := by
  cases parent with
  | none => rfl
  | some i =>
      simp only [Option.map_some, Option.getD_some, Option.bind_some, visibleAt, h.visible_eq]
      cases places.find? fun p => p.node = i <;> rfl

theorem chainAt_eq (parent : Option Nat) : (parent.map tables.chainAt).getD [] =
    ((parent.bind fun i => places.find? fun p => p.node = i).map Place.chain).getD [] := by
  cases parent with
  | none => rfl
  | some i =>
      simp only [Option.map_some, Option.getD_some, Option.bind_some, chainAt, h.chain_eq]

theorem concat {p : Place} (hfresh : p.node ∉ places.map Place.node)
    {affects : List (ColumnRef × List String)} (hpath : p.path = t.pathText p.node)
    (haffects : ∀ c ∈ p.scope, lookupKey c.ref affects = some c.affects)
    (hothers : ∀ c : ColumnRef, c.node ≠ p.node → lookupKey c affects = lookupKey c tables.affects)
    (hhome : ∀ c ∈ p.scope, c.ref.node = p.node ∨ c.ref.node ∈ places.map Place.node) :
    Tabulates { tables.enter p.node with
      affects := affects, visible := (p.node, p.scope.names) :: tables.visible,
      chain := (p.node, p.chain) :: tables.chain } t (places ++ [p]) where
  tree_eq := h.tree_eq
  preorder_eq := by simp [enter, h.preorder_eq]
  position_eq := by
    intro node
    have hposition := h.position_eq node
    rw [position?] at hposition
    rw [List.findIdx?_append, ← hposition, position?, enter, lookupKey]
    split
    · rename_i heq
      rw [hposition, ← heq, findIdx?_fresh hfresh]
      simp [h.preorder_eq]
    · rename_i hne
      simp [hne]
  path_eq := by
    intro node
    rw [find?_concat hfresh, enter, lookupKey, h.path_eq, h.tree_eq, ← hpath]
    split <;> rfl
  visible_eq := by
    intro node
    rw [find?_concat hfresh, lookupKey, h.visible_eq]
    split <;> rfl
  chain_eq := by
    intro node
    rw [find?_concat hfresh, lookupKey, h.chain_eq]
    split <;> rfl
  affects_eq := by
    intro q hq c hc
    rcases List.mem_append.mp hq with hq | hq
    · have hne : c.ref.node ≠ p.node := fun heq => hfresh (heq ▸ h.home q hq c hc)
      exact (hothers c.ref hne).trans (h.affects_eq q hq c hc)
    · rw [List.mem_singleton] at hq
      exact haffects c (hq ▸ hc)
  home := by
    intro q hq c hc
    rw [List.map_append, List.mem_append]
    rcases List.mem_append.mp hq with hq | hq
    · exact .inl (h.home q hq c hc)
    · rw [List.mem_singleton] at hq
      subst hq
      rcases hhome c hc with heq | hmem
      · exact .inr (by simp [heq])
      · exact .inl hmem

end Tabulates

/-- A node is noted as its place has it. -/
theorem visit_alike {places : List Place} (h : Tabulates tables t places) (hnode : node < t.size)
    (hfresh : node ∉ places.map Place.node) {above : Option Place}
    (habove : above = (t.parent? node).bind fun i => places.find? fun p => p.node = i) :
    Alike Eq (fun tables p => p.node = node ∧ Tabulates tables t (places ++ [p]))
      (tables.visit node)
      (t.placeBelow ((above.map Place.scope).getD []) ((above.map Place.chain).getD []) node) := by
  have hn : t.nodes[node]? = some t.nodes[node] := List.getElem?_eq_getElem hnode
  generalize t.nodes[node] = n at hn
  have hparent : t.parent? node = n.parent := by rw [SelectionTree.parent?, hn, Option.bind_some]
  have hmem (c : Column) (hc : c ∈ (above.map Place.scope).getD []) :
      ∃ p ∈ places, c ∈ p.scope := by
    cases above with
    | none => cases hc
    | some p =>
        obtain ⟨i, -, hp⟩ := Option.bind_eq_some_iff.mp habove.symm
        exact ⟨p, List.mem_of_find?_eq_some hp, hc⟩
  have hinherited := h.visibleAt_eq n.parent
  have hchain := h.chainAt_eq n.parent
  rw [← hparent, ← habove, hparent] at hinherited hchain
  have hentered : (tables.enter node).tree.nodes[node]? = some n := h.tree_eq ▸ hn
  have hrun := Declared.run hentered hinherited
    (fun c hc heq => by
      obtain ⟨p, hp, hc⟩ := hmem c hc
      exact hfresh (heq ▸ h.home p hp c hc))
    (fun c hc => by
      obtain ⟨p, hp, hc⟩ := hmem c hc
      exact h.affects_eq p hp c hc)
  have hpath : (tables.enter node).path node = t.pathText node := by
    simp [NameTables.path, enter, lookupKey, h.tree_eq]
  rw [hpath] at hrun
  have hvisited : tables.tree.nodes[node]? = some n := h.tree_eq ▸ hn
  simp only [visit, SelectionTree.placeBelow, hvisited, hn, hinherited]
  refine hrun.bind ?_
  rintro ⟨declared, visible⟩ grown hgrown
  obtain ⟨noted, rfl⟩ : ∃ noted, declared = { tables.enter node with affects := noted } :=
    ⟨_, hgrown.frame⟩
  obtain rfl : visible = grown.names := hgrown.visible
  have hlookup (name : String) : NameTables.lookup { tables.enter node with
      affects := noted, visible := (node, grown.names) :: tables.visible } (.after node) name =
      (grown.lookup name).map Column.ref := by
    rw [lookup, visibleAt, lookupKey, if_pos rfl, Option.getD_some, Scope.lookupKey_names]
  have hreach := reach_eq hlookup hgrown.affects hpath
  have hchain : (n.parent.map (chainAt { tables.enter node with
      affects := noted, visible := (node, grown.names) :: tables.visible })).getD [] =
      (above.map Place.chain).getD [] := hchain
  simp only [enter] at hreach hchain ⊢
  rw [hchain, hreach]
  cases hreached : grown.reach _ _ _ _ with
  | error e => exact .error rfl
  | ok chain =>
      let p : Place := ⟨node, n.name, t.pathText node, n.parent, n.filter, grown, chain⟩
      refine .ok ⟨rfl, h.concat (p := p) hfresh rfl hgrown.affects hgrown.others fun c hc => ?_⟩
      rcases hgrown.ref_cases hc with ⟨hnode, -⟩ | ⟨d, hd, hdc⟩
      · exact .inl hnode
      · obtain ⟨p, hp, hd⟩ := hmem d hd
        exact .inr (hdc ▸ h.home p hp d hd)

private theorem place_eq (ht : t.WellFormed) {before after : List Nat}
    (hsplit : t.preorder = before ++ node :: after) {places : List Place}
    (hnodes : places.map Place.node = before)
    (hplaces : ∀ p ∈ places, t.place p.node = .ok p) {above : Option Place}
    (habove : above = (t.parent? node).bind fun i => places.find? fun p => p.node = i) :
    t.place node = t.placeBelow ((above.map Place.scope).getD [])
      ((above.map Place.chain).getD []) node := by
  have hnode : node < t.size := ht.lt_of_mem_preorder (by simp [hsplit])
  rcases Nat.eq_zero_or_pos node with rfl | hpos
  · rw [habove, ht.parent_root, SelectionTree.place_root]
    rfl
  · obtain ⟨parent, hparent⟩ := ht.exists_parent hpos hnode
    have hmem := ht.parent_mem_preorder hsplit hparent
    rw [← hnodes] at hmem
    cases hfind : places.find? fun p => p.node = parent with
    | none =>
        obtain ⟨q, hq, heq⟩ := List.mem_map.mp hmem
        exact absurd (by simpa using heq) (List.find?_eq_none.mp hfind q hq)
    | some q =>
        have hq : q.node = parent := by simpa using List.find?_some hfind
        have hplace := hplaces q (List.mem_of_find?_eq_some hfind)
        rw [ht.place_child hparent, ← hq, hplace, habove, hparent, Option.bind_some, hfind]
        rfl

private theorem walk_alike (ht : t.WellFormed) {before after : List Nat}
    (hsplit : t.preorder = before ++ after) {places : List Place}
    (hnodes : places.map Place.node = before)
    (hplaces : ∀ p ∈ places, t.place p.node = .ok p) (h : Tabulates tables t places) :
    Alike Eq (fun tables rest => Tabulates tables t (places ++ rest))
      (after.foldlM visit tables) (after.mapM t.place) := by
  induction after generalizing before places tables with
  | nil => exact .ok ((List.append_nil places).symm ▸ h)
  | cons node after ih =>
      have hnode : node < t.size := ht.lt_of_mem_preorder (by simp [hsplit])
      have hfresh : node ∉ places.map Place.node := by
        have hnodup := ht.nodup_preorder
        rw [hsplit, List.nodup_middle, List.nodup_cons] at hnodup
        exact fun hmem => hnodup.1 (List.mem_append_left _ (hnodes ▸ hmem))
      have hvisit := visit_alike h hnode hfresh rfl
      rw [← place_eq ht hsplit hnodes hplaces rfl] at hvisit
      rw [List.foldlM_cons, List.mapM_cons]
      refine hvisit.named.bind fun tables' p ⟨hplace, hp, h'⟩ => ?_
      have hsplit' : t.preorder = before ++ [node] ++ after := by
        rw [hsplit, List.append_assoc, List.singleton_append]
      have hnodes' : (places ++ [p]).map Place.node = before ++ [node] := by
        rw [List.map_append, hnodes, List.map_singleton, hp]
      have hplaces' : ∀ q ∈ places ++ [p], t.place q.node = .ok q := by
        intro q hq
        rcases List.mem_append.mp hq with hq | hq
        · exact hplaces q hq
        · rw [List.mem_singleton] at hq
          rw [hq, hp, hplace]
      have hrest := ih hsplit' hnodes' hplaces' h'
      rw [← bind_pure (List.foldlM _ _ _)]
      refine hrest.bind fun tables rest h => .ok ?_
      rwa [List.append_assoc, List.singleton_append] at h

/-- The walk notes what the places of the index hold, or fails as the index does. -/
theorem build_alike (ht : t.WellFormed) :
    Alike Eq (fun tables index => Tabulates tables t index.places)
      (build t) (ScopeIndex.build t) := by
  have hstart : Tabulates { tree := t } t [] := by
    constructor <;> first | rfl | (intros; rfl) | simp
  have hwalk := walk_alike ht rfl rfl (by simp) hstart
  rw [build, ← bind_pure (List.foldlM _ _ _)]
  exact hwalk.bind fun tables places h => .ok h

end NameTables
end SelectionPlan
