import SelectionPlan.Proofs.Expression.Meaning
import SelectionPlan.Proofs.Expression.Respelling
import SelectionPlan.Proofs.Triple
import SelectionPlan.Variable

/-!
# Renamed expressions

The derivation of a text and that of the text with other column names differ in the names only.  So
the renamed text is an expression, and under its new names it has the value that the old one has
under the old names.  This is what the text of a definition shows.
-/

namespace SelectionPlan

/-! ### Renamed derivations -/

mutual

def Derivation.rename (f : String → String) {level : Level} : Derivation level → Derivation level
  | .joined binary first rest => .joined binary (first.rename f) (rest.rename f)
  | .sign s operand => .sign s (operand.rename f)
  | .atom phrase => .atom (phrase.rename f)
  | .number value => .number value
  | .identifier name => .identifier (if name = "true" ∨ name = "false" then name else f name)
  | .group inner => .group (inner.rename f)
  | .call name g named argument => .call name g named (argument.rename f)
  | .call₂ name g named first second => .call₂ name g named (first.rename f) (second.rename f)

def Continuation.rename (f : String → String) {level : Level} :
    Continuation level → Continuation level
  | .stop => .stop
  | .once op joins single operand => .once op joins single (operand.rename f)
  | .more op joins chains operand rest =>
    .more op joins chains (operand.rename f) (rest.rename f)

end

section Terms

variable {f : String → String}

theorem Sign.term_map {α β : Type} (s : Sign) (g : α → β) (t : Term α) :
    (s.term t).map g = s.term (t.map g) := by
  cases s <;> rfl

theorem identifierTerm_rename (hf : ∀ name, name ≠ "true" → name ≠ "false" →
      f name ≠ "true" ∧ f name ≠ "false") (name : String) :
    identifierTerm (if name = "true" ∨ name = "false" then name else f name) =
      (identifierTerm name).map f := by
  by_cases htrue : name = "true"
  · simp [identifierTerm, htrue, Term.map]
  · by_cases hfalse : name = "false"
    · simp [identifierTerm, hfalse, Term.map]
    · have hkept := hf name htrue hfalse
      simp [identifierTerm, htrue, hfalse, hkept, Term.map]

mutual

theorem Derivation.term_rename (hf : ∀ name, name ≠ "true" → name ≠ "false" →
      f name ≠ "true" ∧ f name ≠ "false") {level : Level} :
    (d : Derivation level) → (d.rename f).term = d.term.map f
  | .joined _ first rest => by
      rw [Derivation.rename, Derivation.term, Derivation.term, first.term_rename hf,
        rest.term_rename hf]
  | .sign s operand => by
      rw [Derivation.rename, Derivation.term, Derivation.term, s.term_map, operand.term_rename hf]
  | .atom phrase => phrase.term_rename hf
  | .number _ => rfl
  | .identifier name => identifierTerm_rename hf name
  | .group inner => inner.term_rename hf
  | .call _ _ _ argument => by
      rw [Derivation.rename, Derivation.term, Derivation.term, argument.term_rename hf, Term.map]
  | .call₂ _ _ _ first second => by
      rw [Derivation.rename, Derivation.term, Derivation.term, first.term_rename hf,
        second.term_rename hf, Term.map]

theorem Continuation.term_rename (hf : ∀ name, name ≠ "true" → name ≠ "false" →
      f name ≠ "true" ∧ f name ≠ "false") {level : Level} :
    (c : Continuation level) → (left : Term String) →
      (c.rename f).term (left.map f) = (c.term left).map f
  | .stop, _ => rfl
  | .once _ _ _ operand, _ => by
      rw [Continuation.rename, Continuation.term, Continuation.term, operand.term_rename hf,
        Term.map]
  | .more op _ _ operand rest, left => by
      rw [Continuation.rename, Continuation.term, Continuation.term, operand.term_rename hf]
      exact rest.term_rename hf (.binary op left operand.term)

end

end Terms

/-! ### Renamed tokens -/

section Tokens

variable {f : String → String}

theorem renameColumns_cons {t : Token} (h : ∀ name, t ≠ .identifier name) (rest : List Token) :
    renameColumns f (t :: rest) = t :: renameColumns f rest := by
  rw [renameColumns, Token.column?_eq_none h, Option.elim_none]

theorem renameColumns_identifier {name : String} {rest : List Token} (h : ¬ Opens rest) :
    renameColumns f (.identifier name :: rest) =
      .identifier (if name = "true" ∨ name = "false" then name else f name) ::
        renameColumns f rest := by
  have hnext : rest.head? ≠ some .openParen := fun hopen => h (opens_of_head hopen)
  rw [renameColumns, Token.column?_identifier name hnext]
  split <;> rfl

mutual

theorem Derivation.tokens_rename {level : Level} : (d : Derivation level) →
    {rest : List Token} → ¬ Opens rest →
      renameColumns f (d.tokens ++ rest) = (d.rename f).tokens ++ renameColumns f rest
  | .joined _ first c, rest, h => by
      rw [Derivation.tokens, List.append_assoc, first.tokens_rename (c.not_opens h),
        c.tokens_rename h, Derivation.rename, Derivation.tokens, List.append_assoc]
  | .sign s operand, rest, h => by
      rw [Derivation.tokens, List.cons_append, renameColumns_cons s.token_ne_identifier,
        operand.tokens_rename h, Derivation.rename, Derivation.tokens, List.cons_append]
  | .atom phrase, _, h => phrase.tokens_rename h
  | .number _, _, _ => rfl
  | .identifier _, _, h => renameColumns_identifier h
  | .group inner, rest, _ => by
      simp only [Derivation.tokens, Derivation.rename, List.cons_append, List.append_assoc]
      rw [renameColumns_cons (by simp)]
      exact congrArg _ (inner.tokens_rename (not_opens_closeParen rest))
  | .call name _ _ argument, rest, _ => by
      simp only [Derivation.tokens, Derivation.rename, List.cons_append, List.append_assoc]
      have hargument := argument.tokens_rename (not_opens_closeParen rest)
      exact congrArg (.identifier name :: .openParen :: ·) hargument
  | .call₂ name _ _ first second, rest, _ => by
      simp only [Derivation.tokens, Derivation.rename, List.cons_append, List.append_assoc]
      have hcomma : ¬ Opens (.comma :: (second.tokens ++ .closeParen :: rest)) := id
      have hsecond := second.tokens_rename (not_opens_closeParen rest)
      have hfirst := first.tokens_rename hcomma
      rw [renameColumns_cons (by simp), hsecond] at hfirst
      exact congrArg (.identifier name :: .openParen :: ·) hfirst

theorem Continuation.tokens_rename {level : Level} : (c : Continuation level) →
    {rest : List Token} → ¬ Opens rest →
      renameColumns f (c.tokens ++ rest) = (c.rename f).tokens ++ renameColumns f rest
  | .stop, _, _ => rfl
  | .once op _ _ operand, rest, h => by
      rw [Continuation.tokens, List.cons_append, renameColumns_cons (by simp),
        operand.tokens_rename h]
      rfl
  | .more op _ _ operand c, rest, h => by
      simp only [Continuation.tokens, Continuation.rename, List.cons_append, List.append_assoc]
      rw [renameColumns_cons (by simp), operand.tokens_rename (c.not_opens h), c.tokens_rename h]

end

structure Follows (tokens : List Token) : Prop where
  apart : Apart tokens
  head : ∀ t ∈ tokens.head?, t.isOperand = false

theorem Follows.nil : Follows [] := ⟨.nil, by simp⟩

theorem Follows.cons {t : Token} {rest : List Token} (ht : t.isOperand = false)
    (h : Apart rest) : Follows (t :: rest) := by
  constructor
  · refine List.isChain_cons.mpr ⟨fun t' _ hboth => ?_, h⟩
    rw [ht] at hboth
    cases hboth.1
  · simp [ht]

theorem Follows.operand {rest : List Token} (h : Follows rest) (t : Token) :
    Apart (t :: rest) := by
  refine List.isChain_cons.mpr ⟨fun t' ht' hboth => ?_, h.apart⟩
  rw [h.head t' ht'] at hboth
  cases hboth.2

mutual

theorem Derivation.apart {level : Level} : (d : Derivation level) → {rest : List Token} →
    Follows rest → Apart (d.tokens ++ rest)
  | .joined _ first c, rest, h => by
      rw [Derivation.tokens, List.append_assoc]
      exact first.apart (c.follows h)
  | .sign s operand, rest, h => by
      have hsign : s.token.isOperand = false := by cases s <;> rfl
      exact (Follows.cons hsign (operand.apart h)).apart
  | .atom phrase, _, h => phrase.apart h
  | .number value, _, h => h.operand (.number value)
  | .identifier name, _, h => h.operand (.identifier name)
  | .group inner, rest, h => by
      have hinner := inner.apart (Follows.cons (t := .closeParen) rfl h.apart)
      rw [Derivation.tokens, List.cons_append, List.append_assoc]
      exact (Follows.cons rfl hinner).apart
  | .call name _ _ argument, rest, h => by
      have hargument := argument.apart (Follows.cons (t := .closeParen) rfl h.apart)
      rw [Derivation.tokens, List.cons_append, List.cons_append, List.append_assoc]
      exact (Follows.cons rfl hargument).operand (.identifier name)
  | .call₂ name _ _ first second, rest, h => by
      have hsecond := second.apart (Follows.cons (t := .closeParen) rfl h.apart)
      have hfirst := first.apart (Follows.cons (t := .comma) rfl hsecond)
      simp only [Derivation.tokens, List.cons_append, List.append_assoc]
      exact (Follows.cons rfl hfirst).operand (.identifier name)

theorem Continuation.follows {level : Level} : (c : Continuation level) → {rest : List Token} →
    Follows rest → Follows (c.tokens ++ rest)
  | .stop, _, h => h
  | .once _ _ _ operand, _, h => .cons rfl (operand.apart h)
  | .more _ _ _ operand c, rest, h => by
      rw [Continuation.tokens, List.cons_append, List.append_assoc]
      exact .cons rfl (operand.apart (c.follows h))

end

end Tokens

/-! ### Distinct elements of images -/

section firstOccurrences

variable {α β : Type} [DecidableEq α] [DecidableEq β]

theorem firstOccurrences_filter (p : α → Bool) (xs : List α) :
    firstOccurrences (xs.filter p) = (firstOccurrences xs).filter p := by
  induction xs with
  | nil => rfl
  | cons x xs ih =>
      by_cases hx : p x = true
      · rw [List.filter_cons_of_pos hx, firstOccurrences, firstOccurrences,
          List.filter_cons_of_pos hx, ih, List.filter_filter, List.filter_filter]
        simp only [Bool.and_comm]
      · rw [List.filter_cons_of_neg hx, firstOccurrences, List.filter_cons_of_neg hx, ih,
          List.filter_filter]
        refine List.filter_congr fun y _ => ?_
        by_cases hy : y = x
        · simp [hy, hx]
        · simp [hy]

theorem firstOccurrences_map (f : α → β) (xs : List α) :
    firstOccurrences ((firstOccurrences xs).map f) = firstOccurrences (xs.map f) := by
  induction xs with
  | nil => rfl
  | cons x xs ih =>
      have hskip : (((firstOccurrences xs).filter (· ≠ x)).map f).filter (· ≠ f x) =
          ((firstOccurrences xs).map f).filter (· ≠ f x) := by
        rw [List.filter_map, List.filter_map, List.filter_filter]
        congr 1
        refine List.filter_congr fun y _ => ?_
        by_cases hy : y = x <;> simp [hy]
      rw [firstOccurrences, List.map_cons, List.map_cons, firstOccurrences, firstOccurrences,
        ← firstOccurrences_filter, hskip, firstOccurrences_filter, ih]

end firstOccurrences

/-! ### Renamed expressions -/

namespace Expression

variable {text : String} {e : Expression}

/-- The renaming of the columns of an expression that leaves every other name as it is. -/
def respell (e : Expression) (f : String → String) (name : String) : String :=
  if name ∈ e.columns then f name else name

theorem respell_of_mem {f : String → String} {name : String} (h : name ∈ e.columns) :
    e.respell f name = f name := if_pos h

/-- The text of a renamed expression is that of its derivation, respelled. -/
theorem respelled_rename (h : parse text = .ok e) (f : String → String) :
    ∃ (d : Derivation .disjunction) (t : Term Occurrence),
      t.map Occurrence.name = d.term ∧ e = ofTerm text t ∧
        Respelled (e.respell f) text.toList d.tokens (e.rename f).toList := by
  rw [parse] at h
  split at h
  · rename_i t hparse
    cases h
    obtain ⟨lexemes, hlex, hterm⟩ := bind_eq_ok.mp hparse
    obtain ⟨d, htokens, hmap⟩ := parse_sound hterm
    have hleaves : t.leaves = occurrences lexemes := leaves_of_parse hterm
    have hcolumn {o : Occurrence} (ho : o ∈ occurrences lexemes) :
        o.name ∈ (ofTerm text t).columns := by
      rw [← hleaves] at ho
      exact mem_firstOccurrences.mpr (List.mem_map_of_mem ho)
    refine ⟨d, t, hmap, rfl, ?_⟩
    have hname : ∀ o ∈ occurrences lexemes,
        f ((ofTerm text t).columns.getD ((ofTerm text t).columns.idxOf o.name) "") =
          (ofTerm text t).respell f o.name := by
      intro o ho
      rw [List.getD_eq_getElem?_getD, List.getElem?_idxOf (hcolumn ho), Option.getD_some,
        respell_of_mem (hcolumn ho)]
    have hrespelled := (placed_of_lex hlex).respelled
      (fun slot => f ((ofTerm text t).columns.getD slot "")) (ofTerm text t).columns.idxOf hname
    rw [htokens, ← hleaves] at hrespelled
    rwa [rename, String.toList_ofList]
  · cases h

/-- The text is another expression if the new names are names of columns. -/
theorem parse_rename (h : parse text = .ok e) {f : String → String}
    (hf : ∀ c ∈ e.columns, IsColumnName (f c)) :
    ∃ (e' : Expression) (t t' : Term Occurrence), parse (e.rename f) = .ok e' ∧
      e = ofTerm text t ∧ e' = ofTerm (e.rename f) t' ∧
        t'.map Occurrence.name = (t.map Occurrence.name).map (e.respell f) := by
  obtain ⟨d, t, hterm, he, hrespelled⟩ := respelled_rename h f
  have hcolumns : e.columns = firstOccurrences (columnNames d.tokens) := by
    rw [he, columns_ofTerm hterm]
  have hnames : ∀ name ∈ columnNames d.tokens, IsColumnName (e.respell f name) := by
    intro name hname
    have hmem : name ∈ e.columns := by
      rw [hcolumns]
      exact mem_firstOccurrences.mpr hname
    rw [respell_of_mem hmem]
    exact hf name hmem
  have hkept : ∀ name, name ≠ "true" → name ≠ "false" →
      e.respell f name ≠ "true" ∧ e.respell f name ≠ "false" := by
    intro name htrue hfalse
    by_cases hmem : name ∈ e.columns
    · rw [respell_of_mem hmem]
      exact (hf name hmem).2
    · simp [respell, hmem, htrue, hfalse]
  have hlexed : Lexed (e.rename f).toList (d.rename (e.respell f)).tokens := by
    have hapart := d.apart Follows.nil
    have htokens : renameColumns (e.respell f) (d.tokens ++ []) = _ :=
      d.tokens_rename (show ¬ Opens [] from id)
    rw [List.append_nil] at hapart htokens
    have hlexed := hrespelled.lexed hapart hnames
    rwa [htokens, renameColumns, List.append_nil] at hlexed
  obtain ⟨e', he'⟩ := parse_of_lexed hlexed
  obtain ⟨d', t', hlexed', hterm', hsource⟩ := parse_eq_ok he'
  have hd : d' = d.rename (e.respell f) := derivation_unique hlexed' hlexed
  refine ⟨e', t, t', he', he, hsource, ?_⟩
  rw [hterm', hterm, hd, d.term_rename hkept]

section ofTerm

variable {t t' : Term Occurrence} {g : String → String}

theorem columns_ofTerm_map (source source' : String)
    (h : t'.map Occurrence.name = (t.map Occurrence.name).map g) :
    (ofTerm source' t').columns = firstOccurrences ((ofTerm source t).columns.map g) := by
  have hleaves : t'.leaves.map Occurrence.name = (t.leaves.map Occurrence.name).map g := by
    rw [← Term.leaves_map, h, Term.leaves_map, Term.leaves_map]
  simp only [ofTerm, hleaves, firstOccurrences_map]

theorem eval_columns (source : String) (t : Term Occurrence) (env : String → Float) :
    (ofTerm source t).eval ((ofTerm source t).columns.map env) =
      (t.map Occurrence.name).eval env := by
  rw [eval, ofTerm, Term.eval_map, Term.eval_map]
  refine Term.eval_congr fun o ho => ?_
  have hmem : o.name ∈ firstOccurrences (t.leaves.map Occurrence.name) :=
    mem_firstOccurrences.mpr (List.mem_map_of_mem ho)
  simp only [List.getD_eq_getElem?_getD, List.getElem?_map, List.getElem?_idxOf hmem,
    Option.map_some, Option.getD_some]

end ofTerm

/-- What a renamed text means. -/
theorem eval_rename (h : parse text = .ok e) {f : String → String}
    (hf : ∀ c ∈ e.columns, IsColumnName (f c)) :
    ∃ e', parse (e.rename f) = .ok e' ∧ e'.columns = firstOccurrences (e.columns.map f) ∧
      ∀ env : String → Float,
        e'.eval (e'.columns.map env) = e.eval (e.columns.map fun c => env (f c)) := by
  obtain ⟨e', t, t', hparse, he, he', hterm⟩ := parse_rename h hf
  have hrespell {α : Type} (g : String → α) :
      e.columns.map (fun c => g (e.respell f c)) = e.columns.map fun c => g (f c) :=
    List.map_congr_left fun c hc => by rw [respell_of_mem hc]
  refine ⟨e', hparse, ?_, fun env => ?_⟩
  · have hcolumns := columns_ofTerm_map text (e.rename f) hterm
    rw [← he, ← he'] at hcolumns
    exact hcolumns.trans (congrArg firstOccurrences (hrespell id))
  · have hvalue := eval_columns (e.rename f) t' env
    have hvalue' := eval_columns text t fun c => env (e.respell f c)
    rw [← he', hterm, Term.eval_map] at hvalue
    rw [← he, hrespell env] at hvalue'
    rw [hvalue, hvalue']

theorem rename_id (h : parse text = .ok e) : e.rename id = text := by
  obtain ⟨d, t, -, -, hrespelled⟩ := respelled_rename h id
  refine String.toList_inj.mp (hrespelled.eq_self fun name _ => ?_)
  unfold respell
  split <;> rfl

theorem getD_idxOf_carriers {physical : String → Option String} {names carriers : List String}
    (h : names.map physical = carriers.map some) :
    (∀ c ∈ names, physical c = some (carriers.getD (names.idxOf c) "")) ∧
      names.map (fun c => carriers.getD (names.idxOf c) "") = carriers := by
  have hslot : ∀ c ∈ names, physical c = some (carriers.getD (names.idxOf c) "") := by
    intro c hc
    have hfound : (carriers[names.idxOf c]?).map some = some (physical c) := by
      rw [← List.getElem?_map, ← h, List.getElem?_map, List.getElem?_idxOf hc, Option.map_some]
    obtain ⟨p, hp, hphysical⟩ := Option.map_eq_some_iff.mp hfound
    rw [List.getD_eq_getElem?_getD, hp, Option.getD_some, hphysical]
  refine ⟨hslot, List.map_injective_iff.mpr (fun _ _ => Option.some.inj) ?_⟩
  rw [← h, List.map_map]
  exact (List.map_congr_left hslot).symm

/-- The text of a definition shows its value as a function of the columns that carry its inputs. -/
theorem resolve_expression (h : parse text = .ok e) {v : Variable} {s : Systematic}
    {physical : String → Option String} {location : String} (hspec : v.spec s = .expression e)
    (hphysical : ∀ c ∈ e.columns, ∀ p, physical c = some p → IsColumnName p) :
    Meets (v.resolve s physical location)
      (fun d => d = .expression d.text e d.inputs ∧ e.columns.map physical = d.inputs.map some ∧
        ∃ e', parse d.text = .ok e' ∧ e'.columns = firstOccurrences d.inputs ∧
          ∀ env : String → Float, e'.eval (e'.columns.map env) = d.eval (d.inputs.map env))
      (fun _ => ∃ c ∈ e.columns, physical c = none) := by
  simp only [Variable.resolve, hspec]
  refine Meets.bind (P := fun carriers => e.columns.map physical = carriers.map some) ?_ ?_
  · refine (Meets.mapM (Q := fun c p => physical c = some p) fun c hc => ?_).mono ?_
    · cases hp : physical c with
      | none => exact Meets.error ⟨c, hc, hp⟩
      | some p => exact Meets.ok rfl
    · intro carriers hfound
      rwa [← List.forall₂_eq_eq_eq, List.forall₂_map_left_iff, List.forall₂_map_right_iff]
  · intro carriers hcarriers
    obtain ⟨hslot, hshown⟩ := getD_idxOf_carriers hcarriers
    obtain ⟨e', hparse, hcolumns, hvalue⟩ :=
      eval_rename h fun c hc => hphysical c hc _ (hslot c hc)
    rw [hshown] at hcolumns
    refine Meets.ok ⟨rfl, hcarriers, e', hparse, hcolumns, fun env => ?_⟩
    have hinputs := congrArg (List.map env) hshown
    rw [List.map_map] at hinputs
    exact (hvalue env).trans (congrArg e.eval hinputs)

/-- Rewriting an expression keeps its meaning.  If every column gets the name of a column, the text
is an expression over the new names whose value is that of the old one where each column has the
value of its new name.  Names that stay leave the text as it is.  So the text that a resolved
variable shows denotes the function of the physical columns that it evaluates. -/
theorem rename_meaning (h : parse text = .ok e) :
    (∀ f : String → String, (∀ c ∈ e.columns, IsColumnName (f c)) →
        ∃ e', parse (e.rename f) = .ok e' ∧ e'.columns = firstOccurrences (e.columns.map f) ∧
          ∀ env : String → Float,
            e'.eval (e'.columns.map env) = e.eval (e.columns.map fun c => env (f c))) ∧
      e.rename id = text ∧
      ∀ (v : Variable) (s : Systematic) (physical : String → Option String) (location : String),
        v.spec s = .expression e →
        (∀ c ∈ e.columns, ∀ p, physical c = some p → IsColumnName p) →
        Meets (v.resolve s physical location)
          (fun d => d = .expression d.text e d.inputs ∧
            e.columns.map physical = d.inputs.map some ∧
            ∃ e', parse d.text = .ok e' ∧ e'.columns = firstOccurrences d.inputs ∧
              ∀ env : String → Float, e'.eval (e'.columns.map env) = d.eval (d.inputs.map env))
          (fun _ => ∃ c ∈ e.columns, physical c = none) :=
  ⟨fun _ hf => eval_rename h hf, rename_id h,
    fun _ _ _ _ hspec hphysical => resolve_expression h hspec hphysical⟩

/-- Two columns of which one has the name of a function become one. -/
theorem rename_meaning_merged :
    ∃ e e', parse "abs(max) - b*max" = .ok e ∧ e.columns = ["max", "b"] ∧
      parse "abs(e1) - e1*e1" = .ok e' ∧ e'.columns = ["e1"] ∧
        ∀ x : Float, e'.eval [x] = e.eval [x, x] := by
  obtain ⟨e, he⟩ : ∃ e, parse "abs(max) - b*max" = .ok e := ⟨_, rfl⟩
  have hcolumns : e.columns = ["max", "b"] := by
    cases he
    rfl
  have htext : e.rename (fun _ => "e1") = "abs(e1) - e1*e1" := by
    cases he
    rfl
  have hnames : ∀ c ∈ e.columns, IsColumnName "e1" := fun _ _ => ⟨rfl, by decide, by decide⟩
  obtain ⟨e', hparse, hcolumns', hvalue⟩ := (rename_meaning he).1 (fun _ => "e1") hnames
  have hone : e'.columns = ["e1"] := by
    rw [hcolumns', hcolumns]
    rfl
  rw [htext] at hparse
  refine ⟨e, e', he, hcolumns, hparse, hone, fun x => ?_⟩
  have hx := hvalue fun _ => x
  rwa [hone, hcolumns] at hx

end Expression
end SelectionPlan
