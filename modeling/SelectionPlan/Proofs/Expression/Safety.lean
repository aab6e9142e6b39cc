import SelectionPlan.Proofs.Expression.Recorder

/-!
# Expressions never panic

An expression is recorded as the source of its text, a tree with slots, its columns and the ranges
of bytes where the text names them.  Evaluating it indexes the arguments of calls, and renaming its
columns cuts the text at the ranges.  Every text that is accepted is recorded so that no index and
no cut is out of bounds.
-/

namespace SelectionPlan

/-! ### Evaluation -/

namespace Ast

/-- A binary operator after its left operand did not decide the value. -/
def combine (op : BinaryOperator) (x y : Float) : Float :=
  match op with
  | .and | .or => truthValue (truthy y)
  | op => op.apply x y

mutual

def eval (values : List Float) : Ast → Except Halt Float
  | .constant value => .ok value
  | .column slot => .ok (values[slot]?.getD Binary64.notANumber)
  | .negate operand => do return -(← eval values operand)
  | .not operand => do return truthValue (!truthy (← eval values operand))
  | .binary op left right => do
    let x ← eval values left
    if op = .and ∧ !truthy x then return 0
    else if op = .or ∧ truthy x then return 1
    else return combine op x (← eval values right)
  | .call f arguments => do
    let x ← evalArgument values arguments 0
    match f with
    | .unary g => return g.apply x
    | .binary g => return g.apply x (← evalArgument values arguments 1)

def evalArgument (values : List Float) : List Ast → Nat → Except Halt Float
  | [], _ => .error .panic
  | argument :: _, 0 => eval values argument
  | _ :: others, i + 1 => evalArgument values others i

end

mutual

def slots : Ast → List Nat
  | .constant _ => []
  | .column slot => [slot]
  | .negate operand | .not operand => slots operand
  | .binary _ left right => slots left ++ slots right
  | .call _ arguments => slotsOfAll arguments

def slotsOfAll : List Ast → List Nat
  | [] => []
  | argument :: others => slots argument ++ slotsOfAll others

end

mutual

def calls : Ast → List (Primitive × Nat)
  | .constant _ | .column _ => []
  | .negate operand | .not operand => calls operand
  | .binary _ left right => calls left ++ calls right
  | .call f arguments => (f, arguments.length) :: callsOfAll arguments

def callsOfAll : List Ast → List (Primitive × Nat)
  | [] => []
  | argument :: others => calls argument ++ callsOfAll others

end

theorem slots_ofTerm (t : Term Nat) : (ofTerm t).slots = t.leaves := by
  induction t with
  | constant | column => rfl
  | negate t ih | not t ih => exact ih
  | call f t ih => simp only [ofTerm, slots, slotsOfAll, Term.leaves, ih, List.append_nil]
  | binary op l r ihl ihr => simp only [ofTerm, slots, Term.leaves, ihl, ihr]
  | call₂ f x y ihx ihy =>
      simp only [ofTerm, slots, slotsOfAll, Term.leaves, ihx, ihy, List.append_nil]

theorem calls_ofTerm (t : Term Nat) : ∀ call ∈ (ofTerm t).calls, call.2 = call.1.arity := by
  induction t with
  | constant | column => exact nofun
  | negate t ih | not t ih => exact ih
  | call f t ih =>
      simp only [ofTerm, calls, callsOfAll, List.append_nil, List.forall_mem_cons]
      exact ⟨rfl, ih⟩
  | binary op l r ihl ihr =>
      simp only [ofTerm, calls, List.forall_mem_append]
      exact ⟨ihl, ihr⟩
  | call₂ f x y ihx ihy =>
      simp only [ofTerm, calls, callsOfAll, List.append_nil, List.forall_mem_cons,
        List.forall_mem_append]
      exact ⟨rfl, ihx, ihy⟩

theorem eval_binary (values : List Float) (op : BinaryOperator) {left right : Ast} {x y : Float}
    (hleft : left.eval values = .ok x) (hright : right.eval values = .ok y) :
    (binary op left right).eval values = .ok (op.apply x y) := by
  rw [eval, hleft, ok_bind, hright]
  cases op with
  | and =>
      cases hx : truthy x <;> simp only [BinaryOperator.apply, combine, hx] <;> rfl
  | or =>
      cases hx : truthy x <;> simp only [BinaryOperator.apply, combine, hx] <;> rfl
  | _ => rfl

theorem eval_ofTerm (values : List Float) (t : Term Nat) :
    (ofTerm t).eval values = .ok (t.eval fun slot => values.getD slot Binary64.notANumber) := by
  induction t with
  | constant => rfl
  | column slot => simp only [ofTerm, eval, Term.eval, List.getD_eq_getElem?_getD]
  | negate t ih | not t ih =>
      rw [ofTerm, eval, ih]
      rfl
  | call f t ih =>
      rw [ofTerm, eval, evalArgument, ih]
      rfl
  | binary op l r ihl ihr => exact eval_binary values op ihl ihr
  | call₂ f x y ihx ihy =>
      rw [ofTerm, eval, evalArgument, ihx, evalArgument, evalArgument, ihy]
      rfl

end Ast

/-! ### Places in the text -/

theorem Placed.ascii {offset : Nat} {cs : List Char} {lexemes : List Lexeme}
    (h : Placed offset cs lexemes) : Ascii cs := by
  induction h with
  | nil => exact nofun
  | @blank _ c rest _ hblank _ ih =>
      have hone : Ascii [c] := by simpa [Ascii] using ofAscii_isBlank c hblank
      exact hone.append ih
  | word hlongest _ ih => exact hlongest.spells.ascii.append ih

theorem Placed.cut {offset : Nat} {cs : List Char} {lexemes : List Lexeme}
    (h : Placed offset cs lexemes) : ∀ l ∈ lexemes, ∃ before word after,
      cs = before ++ word ++ after ∧ LongestWord (word ++ after) word (some l.token) ∧
        l.start = offset + before.length ∧ l.stop = l.start + word.length := by
  induction h with
  | nil => exact nofun
  | @blank offset c rest lexemes _ _ ih =>
      intro l hl
      obtain ⟨before, word, after, rfl, hlongest, hstart, hstop⟩ := ih l hl
      refine ⟨c :: before, word, after, rfl, hlongest, ?_, hstop⟩
      rw [hstart, List.length_cons]
      omega
  | @word offset word rest t lexemes hlongest _ ih =>
      intro l hl
      rcases List.mem_cons.mp hl with rfl | hl
      · exact ⟨[], word, rest, rfl, hlongest, rfl, rfl⟩
      · obtain ⟨before, other, after, rfl, hother, hstart, hstop⟩ := ih l hl
        refine ⟨word ++ before, other, after, ?_, hother, ?_, hstop⟩
        · simp only [List.append_assoc]
        · rw [hstart, List.length_append, Nat.add_assoc]

theorem Placed.pairwise {offset : Nat} {cs : List Char} {lexemes : List Lexeme}
    (h : Placed offset cs lexemes) :
    (occurrences lexemes).Pairwise fun o o' => o.stop ≤ o'.start := by
  induction h with
  | nil => exact .nil
  | blank _ _ ih => exact ih
  | @word offset word rest t lexemes hlongest hrest ih =>
      rw [occurrences]
      refine List.pairwise_append.mpr ⟨?_, ih, fun o ho o' ho' => ?_⟩
      · cases (t.column? (lexemes.head?.map Lexeme.token)) <;> simp
      · obtain ⟨name, -, rfl⟩ := Option.map_eq_some_iff.mp (Option.mem_toList.mp ho)
        obtain ⟨l, hl, -, hstart, -⟩ := mem_occurrences ho'
        rw [← hstart]
        exact (hrest.start_le l hl).1

theorem Placed.spelled {cs : List Char} {lexemes : List Lexeme} (h : Placed 0 cs lexemes)
    {o : Occurrence} (ho : o ∈ occurrences lexemes) :
    o.start < o.stop ∧ o.stop ≤ cs.length ∧ slice? cs o.start o.stop = some o.name.toList := by
  obtain ⟨l, hl, htoken, hstart, hstop⟩ := mem_occurrences ho
  obtain ⟨before, word, after, rfl, hlongest, hbefore, hword⟩ := h.cut l hl
  have hspells := hlongest.spells
  rw [htoken] at hspells
  obtain ⟨hname, c, others, hcons, -⟩ := hspells.eq_toList
  have hascii : Ascii before := fun d hd =>
    h.ascii d (List.mem_append_left _ (List.mem_append_left _ hd))
  have hcut : slice? (before ++ word ++ after) before.length (before.length + word.length) =
      some word := slice?_ascii hascii hspells.ascii
  rw [Nat.zero_add] at hbefore
  rw [← hstart, ← hstop, hword, hbefore, ← hname, hcut, List.length_append, List.length_append,
    hcons, List.length_cons]
  exact ⟨by omega, by omega, rfl⟩

/-! ### Recorded expressions -/

structure Recorded where
  source : String
  ast : Ast
  columns : List String
  spans : List ColumnReference

namespace Recorded

def parse (text : String) : Except Halt Recorded := do
  let tokens ← ByteLexer.lex text.toList
  let (ast, b) ← Recorder.parse tokens
  return ⟨text, ast, b.columns, b.spans⟩

def eval (p : Recorded) (values : List Float) : Except Halt Float := p.ast.eval values

/-- The text after byte `cursor` with every span in it written anew. -/
def rewriteFrom (p : Recorded) (f : String → String) :
    (cursor : Nat) → List ColumnReference → Except Halt (List Char)
  | cursor, [] => orPanic (dropBytes? cursor p.source.toList)
  | cursor, span :: spans => do
    let kept ← orPanic (slice? p.source.toList cursor span.start)
    let name ← orPanic p.columns[span.slot]?
    let rest ← rewriteFrom p f span.stop spans
    return kept ++ (f name).toList ++ rest

def rewrite (p : Recorded) (f : String → String) : Except Halt String :=
  return String.ofList (← p.rewriteFrom f 0 p.spans)

/-- What a recorded expression fulfils: its slots are those of its columns, which are distinct and
all used; its spans are disjoint pieces of the text in order, one for each column of the tree and of
the text, and each the name of its column; and every call has the arguments of its function. -/
structure WellFormed (p : Recorded) : Prop where
  columns_nodup : p.columns.Nodup
  slot_lt : ∀ slot ∈ p.ast.slots, slot < p.columns.length
  span_slot_lt : ∀ span ∈ p.spans, span.slot < p.columns.length
  used : ∀ slot < p.columns.length, slot ∈ p.ast.slots
  span_slots : p.spans.map ColumnReference.slot = p.ast.slots
  span_places : ∃ lexemes, lex p.source.toList = .ok lexemes ∧
    p.spans.map (fun span => (span.start, span.stop)) =
      (occurrences lexemes).map fun o => (o.start, o.stop)
  span_nonempty : ∀ span ∈ p.spans, span.start < span.stop
  span_order : p.spans.Pairwise fun span span' =>
    span.start < span'.start ∧ span.stop ≤ span'.start
  span_within : ∀ span ∈ p.spans, span.stop ≤ (utf8 p.source.toList).length
  span_text : ∀ span ∈ p.spans, ∃ name, p.columns[span.slot]? = some name ∧
    slice? p.source.toList span.start span.stop = some name.toList
  arity : ∀ call ∈ p.ast.calls, call.2 = call.1.arity ∧ 1 ≤ call.2

def ofExpression (e : Expression) : Recorded :=
  ⟨e.source, .ofTerm e.body, e.columns, e.references⟩

theorem parse_eq (text : String) :
    parse text = safely (fun t => ofExpression (.ofTerm text t))
      (lex text.toList >>= Parser.parse) := by
  rw [parse, ByteLexer.lex_eq]
  refine safely_bind fun tokens _ => ?_
  rw [id_eq, Recorder.parse_eq]
  cases Parser.parse tokens with
  | error e => rfl
  | ok t =>
      simp only [safely, ok_bind, Recorder.record_ofTerm text t]
      rfl

section ofTerm

variable {text : String} {lexemes : List Lexeme} {t : Term Occurrence}

theorem wellFormed_ofTerm (hlex : lex text.toList = .ok lexemes)
    (hparse : Parser.parse lexemes = .ok t) :
    (ofExpression (.ofTerm text t)).WellFormed := by
  have hleaves : t.leaves = occurrences lexemes := leaves_of_parse hparse
  have hplaced := placed_of_lex hlex
  let columns := (Expression.ofTerm text t).columns
  have hmem {o : Occurrence} (ho : o ∈ t.leaves) : o.name ∈ columns :=
    mem_firstOccurrences.mpr (List.mem_map_of_mem ho)
  have hslots : (ofExpression (.ofTerm text t)).ast.slots =
      t.leaves.map fun o => columns.idxOf o.name := by
    rw [ofExpression, Ast.slots_ofTerm, Expression.ofTerm, Term.leaves_map]
    rfl
  have hspelled {o : Occurrence} (ho : o ∈ t.leaves) := hplaced.spelled (hleaves ▸ ho)
  have hnodup : columns.Nodup := nodup_firstOccurrences _
  have hspans : (ofExpression (.ofTerm text t)).spans = t.leaves.map (Recorder.reference columns) :=
    rfl
  constructor
  case columns_nodup => exact hnodup
  case slot_lt =>
    rw [hslots, List.forall_mem_map]
    exact fun o ho => List.idxOf_lt_length_of_mem (hmem ho)
  case span_slot_lt =>
    rw [hspans, List.forall_mem_map]
    exact fun o ho => List.idxOf_lt_length_of_mem (hmem ho)
  case used =>
    intro slot hslot
    have hname : columns[slot] ∈ t.leaves.map Occurrence.name :=
      mem_firstOccurrences.mp (List.getElem_mem hslot)
    obtain ⟨o, ho, hname⟩ := List.mem_map.mp hname
    rw [hslots]
    refine List.mem_map.mpr ⟨o, ho, ?_⟩
    rw [hname]
    exact hnodup.idxOf_getElem slot hslot
  case span_slots =>
    rw [hslots, hspans, List.map_map]
    rfl
  case span_places =>
    refine ⟨lexemes, hlex, ?_⟩
    rw [← hleaves, hspans, List.map_map]
    rfl
  case span_nonempty =>
    rw [hspans, List.forall_mem_map]
    exact fun o ho => (hspelled ho).1
  case span_order =>
    rw [hspans, List.pairwise_map, hleaves]
    refine hplaced.pairwise.imp_of_mem fun ho _ hle => ⟨?_, hle⟩
    exact Nat.lt_of_lt_of_le (hplaced.spelled ho).1 hle
  case span_within =>
    rw [hspans, List.forall_mem_map]
    exact fun o ho => (hspelled ho).2.1.trans (length_le_utf8 _)
  case span_text =>
    rw [hspans, List.forall_mem_map]
    exact fun o ho => ⟨o.name, List.getElem?_idxOf (hmem ho), (hspelled ho).2.2⟩
  case arity =>
    intro call hcall
    have harity := Ast.calls_ofTerm _ call hcall
    refine ⟨harity, ?_⟩
    rw [harity]
    cases call.1 with
    | unary g => exact Nat.le_refl 1
    | binary g => exact Nat.le_succ 1

end ofTerm

/-! ### Rewriting -/

/-- A text is cut as its characters are, where all of them are ASCII. -/
theorem rewriteFrom_eq {p : Recorded} (hascii : Ascii p.source.toList) (f : String → String)
    {spans : List ColumnReference} {cursor : Nat} (hcursor : cursor ≤ p.source.toList.length)
    (hspans : ∀ span ∈ spans, cursor ≤ span.start ∧ span.start ≤ span.stop ∧
      span.stop ≤ p.source.toList.length ∧ span.slot < p.columns.length)
    (horder : spans.Pairwise fun span span' => span.stop ≤ span'.start) :
    p.rewriteFrom f cursor spans =
      .ok (Expression.renameFrom (fun slot => f (p.columns.getD slot "")) cursor spans
        (p.source.toList.drop cursor)) := by
  induction spans generalizing cursor with
  | nil => rw [rewriteFrom, dropBytes?_of_ascii hascii hcursor, orPanic, Expression.renameFrom]
  | cons span spans ih =>
      obtain ⟨hbefore, horder⟩ := List.pairwise_cons.mp horder
      obtain ⟨⟨hstart, hle, hstop, hslot⟩, hspans⟩ := List.forall_mem_cons.mp hspans
      have hkept := slice?_of_ascii hascii hstart (hle.trans hstop)
      have hname : p.columns[span.slot]? = some (p.columns.getD span.slot "") := by
        rw [List.getD_eq_getElem?_getD, List.getElem?_eq_getElem hslot, Option.getD_some]
      have hrest := ih hstop (fun other hother =>
        ⟨hbefore other hother, (hspans other hother).2⟩) horder
      rw [rewriteFrom, hkept, hname, hrest, Expression.renameFrom, List.drop_drop,
        Nat.add_sub_cancel' (hstart.trans hle)]
      rfl

theorem WellFormed.rewrite_eq {e : Expression} (h : (ofExpression e).WellFormed)
    (hascii : Ascii e.source.toList) (f : String → String) :
    (ofExpression e).rewrite f = .ok (e.rename f) := by
  have hspans : ∀ span ∈ e.references, 0 ≤ span.start ∧ span.start ≤ span.stop ∧
      span.stop ≤ e.source.toList.length ∧ span.slot < e.columns.length := fun span hspan =>
    ⟨Nat.zero_le _, (h.span_nonempty span hspan).le,
      hascii.length_utf8 ▸ h.span_within span hspan, h.span_slot_lt span hspan⟩
  have hrewrite : (ofExpression e).rewriteFrom f 0 e.references = _ :=
    rewriteFrom_eq hascii f (Nat.zero_le _) hspans (h.span_order.imp And.right)
  have hspans : (ofExpression e).spans = e.references := rfl
  rw [rewrite, hspans, hrewrite]
  rfl

/-- A text is read byte by byte to a well-formed expression or to a fault of the text: whatever it
holds, it is never cut inside a character.  The expression and the fault are those of the parser.
No evaluation indexes an argument that is not there and no renaming cuts the text out of its
bounds, so they have the value and the text that the expression has. -/
theorem parse_safe (text : String) :
    Meets (parse text)
      (fun p => p.WellFormed ∧ ∃ e, Expression.parse text = .ok e ∧ p = ofExpression e ∧
        (∀ values, p.eval values = .ok (e.eval values)) ∧ ∀ f, p.rewrite f = .ok (e.rename f))
      fun halt => ∃ fault, halt = .fault fault ∧
        Expression.parse text = .error ⟨text, fault⟩ := by
  rw [parse_eq]
  cases hread : lex text.toList >>= Parser.parse with
  | error fault => exact Meets.error ⟨fault, rfl, by rw [Expression.parse, hread]⟩
  | ok t =>
      obtain ⟨lexemes, hlex, hparse⟩ := bind_eq_ok.mp hread
      have hwellFormed := wellFormed_ofTerm hlex hparse
      refine Meets.ok ⟨hwellFormed, .ofTerm text t, by rw [Expression.parse, hread], rfl, ?_, ?_⟩
      · exact fun values => Ast.eval_ofTerm values _
      · exact hwellFormed.rewrite_eq (placed_of_lex hlex).ascii

/-- Calls in calls with a column twice, and a character of two bytes. -/
theorem parse_safe_nested :
    (∃ p, parse "max(b, -min(a, b))" = .ok p ∧ p.WellFormed ∧ p.columns = ["b", "a"] ∧
      p.spans = [⟨4, 5, 0⟩, ⟨12, 13, 1⟩, ⟨15, 16, 0⟩] ∧
      p.rewrite (fun name => name ++ "_up") = .ok "max(b_up, -min(a_up, b_up))") ∧
    parse "a < µ" = .error (.fault (.unexpectedCharacter 'µ')) := by
  constructor
  · obtain ⟨e, he⟩ : ∃ e, Expression.parse "max(b, -min(a, b))" = .ok e := ⟨_, rfl⟩
    have hread := parse_safe "max(b, -min(a, b))"
    obtain ⟨p, hp, hwellFormed, e', he', rfl, -, hrewrite⟩ := hread.exists_ok <| by
      rintro halt ⟨fault, -, hfault⟩
      cases he.symm.trans hfault
    cases he.symm.trans he'
    refine ⟨_, hp, hwellFormed, ?_, ?_, ?_⟩
    · cases he
      rfl
    · cases he
      rfl
    · rw [hrewrite]
      cases he
      rfl
  · have hfault : Expression.parse "a < µ" = .error ⟨"a < µ", .unexpectedCharacter 'µ'⟩ := rfl
    cases hp : parse "a < µ" with
    | ok p =>
        obtain ⟨-, e, he, -⟩ := (parse_safe _).of_eq_ok hp
        cases hfault.symm.trans he
    | error halt =>
        obtain ⟨fault, rfl, he⟩ := (parse_safe _).of_eq_error hp
        cases hfault.symm.trans he
        rfl

end Recorded

end SelectionPlan
