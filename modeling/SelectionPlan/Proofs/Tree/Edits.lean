import SelectionPlan.Proofs.Tree.Reachable

/-!
# Sequences of edits

A tree is made by edits, one after the other.  An edit that fails reports why, and the next one goes
on from the tree that it leaves.
-/

namespace SelectionPlan

/-- A change that is asked for, with any handles, names and variables. -/
inductive Edit
  | addChild (parent : NodeId) (name : String) (filter : Variable) (label : Option String)
  | define (n : NodeId) (v : Variable)
  | setWeight (n : NodeId) (factor : Variable) (strategy : WeightStrategy)
  | declareColumns (namer : Namer) (columns : List String)
  | declareSystematic (name : String)

namespace SelectionTree

variable {t t' : SelectionTree}

def attempt (t : SelectionTree) : Edit → Except BuildError Unit × SelectionTree
  | .addChild parent name filter label =>
    match t.addChild parent name filter label with
    | .ok (_, t') => (.ok (), t')
    | .error e => (.error e, t)
  | .define n v =>
    match t.define n v with
    | .ok t' => (.ok (), t')
    | .error e => (.error e, t)
  | .setWeight n factor strategy => t.setWeight n factor strategy
  | .declareColumns namer columns => t.declareColumns namer columns
  | .declareSystematic name => (.ok (), t.declareSystematic name)

def edit (t : SelectionTree) (e : Edit) : SelectionTree := (t.attempt e).2

theorem Reachable.edit (h : t.Reachable) (e : Edit) : (t.edit e).Reachable := by
  cases e with
  | addChild parent name filter label =>
      simp only [SelectionTree.edit, attempt]
      split
      · rename_i hadd
        exact h.addChild hadd
      · exact h
  | define n v =>
      simp only [SelectionTree.edit, attempt]
      split
      · rename_i hdefine
        exact h.define hdefine
      · exact h
  | setWeight n factor strategy => exact h.setWeight n factor strategy
  | declareColumns namer columns => exact h.declareColumns namer columns
  | declareSystematic name => exact h.declareSystematic name

def editAll (t : SelectionTree) (edits : List Edit) : SelectionTree := edits.foldl edit t

theorem Reachable.editAll (h : t.Reachable) (edits : List Edit) : (t.editAll edits).Reachable := by
  induction edits generalizing t with
  | nil => exact h
  | cons e edits ih => exact ih (h.edit e)

def ofEdits (id : Nat) (label : Option String) (edits : List Edit) : SelectionTree :=
  (new id label).editAll edits

theorem ofEdits_concat (id : Nat) (label : Option String) (edits : List Edit) (e : Edit) :
    ofEdits id label (edits ++ [e]) = (ofEdits id label edits).edit e := by
  simp [ofEdits, editAll]

theorem reachable_ofEdits (id : Nat) (label : Option String) (edits : List Edit) :
    (ofEdits id label edits).Reachable := (Reachable.new id label).editAll edits

private theorem Reachable.exists_edits (h : t.Reachable) :
    ∃ id label edits, t = ofEdits id label edits := by
  have hlast {t t' : SelectionTree} (e : Edit) (hedit : t.edit e = t')
      (h : ∃ id label edits, t = ofEdits id label edits) :
      ∃ id label edits, t' = ofEdits id label edits := by
    obtain ⟨id, label, edits, rfl⟩ := h
    exact ⟨id, label, edits ++ [e], by rw [ofEdits_concat, hedit]⟩
  induction h with
  | new id label => exact ⟨id, label, [], rfl⟩
  | @addChild _ _ parent _ name filter label _ hadd ih =>
      exact hlast (.addChild parent name filter label)
        (by simp [SelectionTree.edit, attempt, hadd]) ih
  | @define _ _ n v _ hdefine ih =>
      exact hlast (.define n v) (by simp [SelectionTree.edit, attempt, hdefine]) ih
  | setWeight n factor strategy _ ih => exact hlast (.setWeight n factor strategy) rfl ih
  | declareSystematic name _ ih => exact hlast (.declareSystematic name) rfl ih
  | declareColumns namer columns _ ih => exact hlast (.declareColumns namer columns) rfl ih

theorem reachable_iff_edits : t.Reachable ↔ ∃ id label edits, t = ofEdits id label edits := by
  constructor
  · exact Reachable.exists_edits
  · rintro ⟨id, label, edits, rfl⟩
    exact reachable_ofEdits id label edits

end SelectionTree
end SelectionPlan
