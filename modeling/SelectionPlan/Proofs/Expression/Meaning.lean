import SelectionPlan.Expression
import SelectionPlan.Proofs.Expression.Accepting
import SelectionPlan.Proofs.Expression.Lexing

/-!
# What an expression means

A text is an expression if it is cut into the tokens of a derivation, which is then the only one.
The columns of the expression are those that the text names, and its value is what the derivation
denotes.
-/

namespace SelectionPlan

/-! ### Distinct elements -/

section firstOccurrences

variable {α : Type} [DecidableEq α]

theorem mem_firstOccurrences {x : α} {xs : List α} : x ∈ firstOccurrences xs ↔ x ∈ xs := by
  induction xs with
  | nil => exact Iff.rfl
  | cons y ys ih =>
      rw [firstOccurrences, List.mem_cons, List.mem_cons, List.mem_filter, ih, decide_eq_true_eq]
      tauto

theorem nodup_firstOccurrences (xs : List α) : (firstOccurrences xs).Nodup := by
  induction xs with
  | nil => exact List.nodup_nil
  | cons x xs ih =>
      refine List.nodup_cons.mpr ⟨fun hmem => ?_, ih.filter _⟩
      have hne := (List.mem_filter.mp hmem).2
      exact absurd rfl (of_decide_eq_true hne)

theorem pairwise_firstOccurrences (xs : List α) :
    (firstOccurrences xs).Pairwise fun a b => xs.idxOf a < xs.idxOf b := by
  induction xs with
  | nil => exact .nil
  | cons x xs ih =>
      have hlater {a : α} (ha : a ∈ (firstOccurrences xs).filter (· ≠ x)) :
          (x :: xs).idxOf a = xs.idxOf a + 1 := by
        have hne : a ≠ x := of_decide_eq_true (List.mem_filter.mp ha).2
        exact List.idxOf_cons_ne _ hne.symm
      refine List.pairwise_cons.mpr ⟨fun b hb => ?_, ?_⟩
      · rw [hlater hb, List.idxOf_cons_self]
        exact Nat.succ_pos _
      · refine (ih.filter _).imp_of_mem fun ha hb hlt => ?_
        rw [hlater ha, hlater hb]
        exact Nat.succ_lt_succ hlt

end firstOccurrences

/-! ### Renamed terms -/

namespace Term

variable {α β : Type}

theorem leaves_map (f : α → β) (t : Term α) : (t.map f).leaves = t.leaves.map f := by
  induction t with
  | constant | column => rfl
  | negate t ih | not t ih | call g t ih => exact ih
  | binary op l r ihl ihr | call₂ op l r ihl ihr =>
      simp only [map, leaves, ihl, ihr, List.map_append]

theorem eval_map (f : α → β) (env : β → Float) (t : Term α) :
    (t.map f).eval env = t.eval fun a => env (f a) := by
  induction t with
  | constant | column => rfl
  | negate t ih | not t ih | call g t ih => simp only [map, eval, ih]
  | binary op l r ihl ihr | call₂ op l r ihl ihr => simp only [map, eval, ihl, ihr]

theorem eval_congr {env env' : α → Float} {t : Term α} (h : ∀ a ∈ t.leaves, env a = env' a) :
    t.eval env = t.eval env' := by
  induction t with
  | constant => rfl
  | column a => exact h a List.mem_cons_self
  | negate t ih | not t ih | call g t ih => simp only [eval, ih h]
  | binary op l r ihl ihr | call₂ op l r ihl ihr =>
      simp only [eval, ihl fun a ha => h a (List.mem_append_left _ ha),
        ihr fun a ha => h a (List.mem_append_right _ ha)]

end Term

/-! ### Expressions -/

theorem Derivation.columnNames_eq (d : Derivation .disjunction) :
    columnNames d.tokens = d.term.leaves := by
  have hnames := d.columnNames_tokens (show ¬ Opens [] from id)
  rwa [List.append_nil, columnNames, List.append_nil] at hnames

theorem Lexed.unique {text : List Char} {tokens tokens' : List Token} (h : Lexed text tokens)
    (h' : Lexed text tokens') : tokens = tokens' := by
  obtain ⟨lexemes, hlex, rfl⟩ := lexed_iff.mp h
  obtain ⟨lexemes', hlex', rfl⟩ := lexed_iff.mp h'
  cases hlex.symm.trans hlex'
  rfl

namespace Expression

theorem parse_eq_ok {text : String} {e : Expression} (h : parse text = .ok e) :
    ∃ (d : Derivation .disjunction) (t : Term Occurrence), Lexed text.toList d.tokens ∧
      t.map Occurrence.name = d.term ∧ e = ofTerm text t := by
  rw [parse] at h
  split at h
  · rename_i t hparse
    cases h
    obtain ⟨lexemes, hlex, hterm⟩ := bind_eq_ok.mp hparse
    obtain ⟨d, htokens, hmap⟩ := parse_sound hterm
    exact ⟨d, t, lexed_iff.mpr ⟨lexemes, hlex, htokens⟩, hmap, rfl⟩
  · cases h

theorem parse_of_lexed {text : String} {d : Derivation .disjunction}
    (h : Lexed text.toList d.tokens) : ∃ e, parse text = .ok e := by
  obtain ⟨lexemes, hlex, htokens⟩ := lexed_iff.mp h
  obtain ⟨t, hparse, -⟩ := parse_complete d htokens
  refine ⟨ofTerm text t, ?_⟩
  rw [parse, hlex, ok_bind, hparse]

theorem derivation_unique {text : List Char} {d d' : Derivation .disjunction}
    (h : Lexed text d.tokens) (h' : Lexed text d'.tokens) : d = d' :=
  Derivation.eq_of_tokens (h.unique h')

section ofTerm

variable {source : String} {t : Term Occurrence} {d : Derivation .disjunction}

theorem columns_ofTerm (h : t.map Occurrence.name = d.term) :
    (ofTerm source t).columns = firstOccurrences (columnNames d.tokens) := by
  rw [d.columnNames_eq, ← h, Term.leaves_map]
  rfl

/-- An expression has the value that its derivation denotes. -/
theorem eval_ofTerm (h : t.map Occurrence.name = d.term) {values : List Float}
    {env : String → Float}
    (henv : ∀ i name, (ofTerm source t).columns[i]? = some name →
      env name = values.getD i Binary64.notANumber) :
    (ofTerm source t).eval values = d.denote env := by
  rw [← d.eval_term env, ← h, Term.eval_map, eval, ofTerm, Term.eval_map]
  refine Term.eval_congr fun o ho => (henv _ o.name ?_).symm
  have hmem : o.name ∈ firstOccurrences (t.leaves.map Occurrence.name) :=
    mem_firstOccurrences.mpr (List.mem_map_of_mem ho)
  exact List.getElem?_idxOf hmem

end ofTerm

def difference : Derivation .disjunction :=
  let phrase (name : String) : Derivation .signed := .atom (.identifier name)
  let sum : Derivation .sum :=
    .joined rfl (.joined rfl (phrase "b") .stop)
      (.more .sub rfl rfl (.joined rfl (phrase "a") .stop)
        (.more .sub rfl rfl (.joined rfl (phrase "b") (.more .mul rfl rfl (phrase "c") .stop))
          .stop))
  .joined rfl (.joined rfl (.joined rfl sum .stop) .stop) .stop

end Expression
end SelectionPlan
