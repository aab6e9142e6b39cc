import SelectionPlan.Proofs.Expression.ByteLexer
import SelectionPlan.Proofs.Expression.Renaming

/-!
# Columns in slots

A parser that numbers the columns as it meets them has to carry what it has bound so far through
every rule.  It builds the tree of the term with a slot at every column, because what the rules bind
is bound from left to right.
-/

namespace SelectionPlan

/-- The tree of an expression whose columns are slots and whose calls have any number of
arguments. -/
inductive Ast
  | constant (value : Float)
  | column (slot : Nat)
  | negate (operand : Ast)
  | not (operand : Ast)
  | binary (op : BinaryOperator) (left right : Ast)
  | call (f : Primitive) (arguments : List Ast)

structure Recorder where
  columns : List String := []
  spans : List ColumnReference := []

namespace Recorder

/-- Looks up the slot of a column, or gives it the next one, and notes the place. -/
def bindColumn (b : Recorder) (name : String) (start stop : Nat) : Nat × Recorder :=
  match b.columns.findIdx? (· == name) with
  | some slot => (slot, { b with spans := b.spans ++ [⟨start, stop, slot⟩] })
  | none =>
    let columns := b.columns ++ [name]
    let slot := columns.length - 1
    (slot, { columns, spans := b.spans ++ [⟨start, stop, slot⟩] })

def named (b : Recorder) (name : String) (start stop : Nat) : Ast × Recorder :=
  if name = "true" then (.constant 1, b)
  else if name = "false" then (.constant 0, b)
  else
    let (slot, b) := b.bindColumn name start stop
    (.column slot, b)

def applied (name : String) (f : Primitive) (arguments : List Ast) : Except Halt Ast :=
  if arguments.length = f.arity then .ok (.call f arguments)
  else .error (.fault (.wrongArity name f.arity arguments.length))

mutual

def phrase (fuel : Nat) (level : Level) (tokens : List Lexeme) (b : Recorder) :
    Except Halt ((Ast × Recorder) × List Lexeme) :=
  match fuel with
  | 0 => .error .unfinished
  | fuel + 1 =>
    match level with
    | .atom =>
      match tokens with
      | [] => .error (.fault .unexpectedEnd)
      | ⟨.number value, _, _⟩ :: rest => .ok ((.constant value, b), rest)
      | ⟨.openParen, _, _⟩ :: rest => do
        let (inner, rest) ← phrase fuel .disjunction rest b
        let rest ← safely id (Parser.closing rest)
        return (inner, rest)
      | ⟨.identifier name, start, stop⟩ :: rest =>
        match rest with
        | ⟨.openParen, _, _⟩ :: rest =>
          match Primitive.ofName? name with
          | none => .error (.fault (.unknownFunction name))
          | some f => do
            let ((first, b), rest) ← phrase fuel .disjunction rest b
            let ((others, b), rest) ← moreArguments fuel rest b
            let rest ← safely id (Parser.closing rest)
            let call ← applied name f (first :: others)
            return ((call, b), rest)
        | rest => .ok (b.named name start stop, rest)
      | lexeme :: _ => .error (.fault (.unexpected lexeme.token))
    | .signed =>
      match tokens with
      | ⟨.binary .sub, _, _⟩ :: rest => do
        let ((operand, b), rest) ← phrase fuel .signed rest b
        return ((.negate operand, b), rest)
      | ⟨.bang, _, _⟩ :: rest => do
        let ((operand, b), rest) ← phrase fuel .signed rest b
        return ((.not operand, b), rest)
      | ⟨.binary .add, _, _⟩ :: rest => phrase fuel .signed rest b
      | tokens => phrase fuel .atom tokens b
    | level => do
      let ((left, b), rest) ← phrase fuel level.operand tokens b
      joined fuel level left rest b

def joined (fuel : Nat) (level : Level) (left : Ast) (tokens : List Lexeme) (b : Recorder) :
    Except Halt ((Ast × Recorder) × List Lexeme) :=
  match fuel with
  | 0 => .error .unfinished
  | fuel + 1 =>
    match level.operator? tokens with
    | none => .ok ((left, b), tokens)
    | some (op, rest) => do
      let ((right, b), rest) ← phrase fuel level.operand rest b
      if level.chains then joined fuel level (.binary op left right) rest b
      else return ((.binary op left right, b), rest)

def moreArguments (fuel : Nat) (tokens : List Lexeme) (b : Recorder) :
    Except Halt ((List Ast × Recorder) × List Lexeme) :=
  match fuel with
  | 0 => .error .unfinished
  | fuel + 1 =>
    match tokens with
    | ⟨.comma, _, _⟩ :: rest => do
      let ((next, b), rest) ← phrase fuel .disjunction rest b
      let ((others, b), rest) ← moreArguments fuel rest b
      return ((next :: others, b), rest)
    | tokens => .ok (([], b), tokens)

end

def parse (tokens : List Lexeme) : Except Halt (Ast × Recorder) :=
  if tokens.isEmpty then .error (.fault .empty)
  else do
    let (recorded, rest) ← phrase (8 * tokens.length + 8) .disjunction tokens {}
    match rest with
    | [] => return recorded
    | lexeme :: _ => throw (.fault (.trailing lexeme.token))

/-! ### What a term records -/

/-- The tree of a term with its columns bound from left to right. -/
def record (b : Recorder) : Term Occurrence → Ast × Recorder
  | .constant value => (.constant value, b)
  | .column o =>
    let (slot, b) := b.bindColumn o.name o.start o.stop
    (.column slot, b)
  | .negate t => (.negate (b.record t).1, (b.record t).2)
  | .not t => (.not (b.record t).1, (b.record t).2)
  | .binary op l r =>
    (.binary op (b.record l).1 ((b.record l).2.record r).1, ((b.record l).2.record r).2)
  | .call f t => (.call (.unary f) [(b.record t).1], (b.record t).2)
  | .call₂ f x y =>
    (.call (.binary f) [(b.record x).1, ((b.record x).2.record y).1], ((b.record x).2.record y).2)

def recordAll (b : Recorder) : List (Term Occurrence) → List Ast × Recorder
  | [] => ([], b)
  | t :: ts => ((b.record t).1 :: ((b.record t).2.recordAll ts).1, ((b.record t).2.recordAll ts).2)

theorem length_recordAll (b : Recorder) (ts : List (Term Occurrence)) :
    (b.recordAll ts).1.length = ts.length := by
  induction ts generalizing b with
  | nil => rfl
  | cons t ts ih => rw [recordAll, List.length_cons, List.length_cons, ih]

theorem record_named (b : Recorder) (name : String) (start stop : Nat) :
    b.record (Parser.named name start stop) = b.named name start stop := by
  rw [Parser.named, named]
  split
  · rfl
  · split <;> rfl

end Recorder

/-! ### The rules -/

theorem length_lt_of_phrase {fuel : Nat} {level : Level} {tokens rest : List Lexeme}
    {t : Term Occurrence} (h : Parser.phrase fuel level tokens = .ok (t, rest)) :
    rest.length < tokens.length := by
  obtain ⟨d, htokens, -⟩ := (reads fuel).phrase h
  have hlength := congrArg List.length htokens
  have hpos := List.length_pos_iff.mpr d.tokens_ne_nil
  rw [List.length_map, List.length_append, List.length_map] at hlength
  omega

namespace Recorder

variable {b : Recorder} {level : Level} {fuel : Nat} {tokens : List Lexeme}

structure Records (fuel : Nat) : Prop where
  phrase {level : Level} {tokens : List Lexeme} {b : Recorder} :
    8 * tokens.length + 7 ≤ fuel + level.rank →
      Recorder.phrase fuel level tokens b =
        safely (Prod.map b.record id) (Parser.phrase fuel level tokens)
  joined {level : Level} {left : Term Occurrence} {tokens : List Lexeme} {b : Recorder} :
    8 * tokens.length + 1 ≤ fuel →
      Recorder.joined fuel level (b.record left).1 tokens (b.record left).2 =
        safely (Prod.map b.record id) (Parser.joined fuel level left tokens)
  moreArguments {tokens : List Lexeme} {b : Recorder} :
    8 * tokens.length + 1 ≤ fuel →
      Recorder.moreArguments fuel tokens b =
        safely (Prod.map b.recordAll id) (Parser.moreArguments fuel tokens)

theorem applied_eq (b : Recorder) (name : String) (f : Primitive) (ts : List (Term Occurrence)) :
    applied name f (b.recordAll ts).1 =
      safely (fun t => (b.record t).1) (Parser.applied name f ts) := by
  rw [applied, length_recordAll]
  match f, ts with
  | .unary g, [x] => rfl
  | .binary g, [x, y] => rfl
  | .unary g, [] => rfl
  | .binary g, [] => rfl
  | .binary g, [x] => rfl
  | .unary g, x :: y :: rest => simp [Primitive.arity, Parser.applied, safely]
  | .binary g, x :: y :: z :: rest => simp [Primitive.arity, Parser.applied, safely]

theorem record_applied (b : Recorder) {name : String} {f : Primitive}
    {ts : List (Term Occurrence)} {t : Term Occurrence} (h : Parser.applied name f ts = .ok t) :
    (b.record t).2 = (b.recordAll ts).2 := by
  rcases applied_eq_ok.mp h with ⟨g, x, _, rfl, rfl⟩ | ⟨g, x, y, _, rfl, rfl⟩ <;> rfl

theorem one_le_rank_operand (level : Level) : 1 ≤ level.operand.rank := by
  cases level <;> decide

namespace Records

theorem joined_succ (ih : Records fuel) {left : Term Occurrence}
    (hfuel : 8 * tokens.length + 1 ≤ fuel + 1) :
    Recorder.joined (fuel + 1) level (b.record left).1 tokens (b.record left).2 =
      safely (Prod.map b.record id) (Parser.joined (fuel + 1) level left tokens) := by
  rw [Recorder.joined, Parser.joined]
  cases hop : level.operator? tokens with
  | none => rfl
  | some found =>
      obtain ⟨op, rest⟩ := found
      obtain ⟨-, start, stop, rfl⟩ := operator?_eq_some.mp hop
      rw [List.length_cons] at hfuel
      have hrank := one_le_rank_operand level
      simp only
      rw [ih.phrase (by omega)]
      refine safely_bind ?_
      rintro ⟨right, after⟩ hright
      have hlt := length_lt_of_phrase hright
      have hafter : 8 * after.length + 1 ≤ fuel := by omega
      have hjoined : Recorder.joined fuel level (b.record (.binary op left right)).1 after
          (b.record (.binary op left right)).2 = _ := ih.joined hafter
      simp only [Prod.map, id_eq]
      split
      · exact hjoined
      · rfl

theorem binary (ih : Records fuel) (hlevel : level.isBinary = true)
    (hfuel : 8 * tokens.length + 7 ≤ fuel + 1 + level.rank) :
    Recorder.phrase (fuel + 1) level tokens b =
      safely (Prod.map b.record id) (Parser.phrase (fuel + 1) level tokens) := by
  have hrank := Level.rank_lt_of_isBinary hlevel
  have hphrase : Recorder.phrase (fuel + 1) level tokens b = (do
      let ((left, b), rest) ← Recorder.phrase fuel level.operand tokens b
      Recorder.joined fuel level left rest b) := by
    cases level with
    | signed | atom => cases hlevel
    | _ => rfl
  rw [hphrase, phrase_binary hlevel, ih.phrase (by rw [Level.rank_operand hlevel]; omega)]
  refine safely_bind ?_
  rintro ⟨left, rest⟩ hleft
  have hlt := length_lt_of_phrase hleft
  have hrest : 8 * rest.length + 1 ≤ fuel := by omega
  exact ih.joined hrest

theorem sign (ih : Records fuel) (s : Sign) (start stop : Nat)
    (hfuel : 8 * tokens.length + 7 ≤ fuel + 5) :
    Recorder.phrase (fuel + 1) .signed (⟨s.token, start, stop⟩ :: tokens) b =
      safely (Prod.map b.record id)
        (Parser.phrase (fuel + 1) .signed (⟨s.token, start, stop⟩ :: tokens)) := by
  have hoperand : Recorder.phrase fuel .signed tokens b = _ := ih.phrase hfuel
  cases s with
  | plus => exact hoperand
  | minus | bang =>
      rw [phrase_sign]
      simp only [Sign.token, Recorder.phrase]
      rw [hoperand]
      exact safely_bind fun _ _ => rfl

theorem signed (ih : Records fuel) (hfuel : 8 * tokens.length + 7 ≤ fuel + 1 + 5) :
    Recorder.phrase (fuel + 1) .signed tokens b =
      safely (Prod.map b.record id) (Parser.phrase (fuel + 1) .signed tokens) := by
  have hatom : Recorder.phrase fuel .atom tokens b = _ := ih.phrase hfuel
  cases tokens with
  | nil => exact hatom
  | cons lexeme rest =>
      obtain ⟨token, start, stop⟩ := lexeme
      rw [List.length_cons] at hfuel
      have hrest : 8 * rest.length + 7 ≤ fuel + 5 := by omega
      cases token with
      | bang => exact ih.sign .bang start stop hrest
      | binary op =>
          cases op with
          | sub => exact ih.sign .minus start stop hrest
          | add => exact ih.sign .plus start stop hrest
          | _ => exact hatom
      | _ => exact hatom

theorem call (ih : Records fuel) {name : String} {start stop start' stop' : Nat}
    (hfuel : 8 * tokens.length + 7 ≤ fuel) :
    Recorder.phrase (fuel + 1) .atom
        (⟨.identifier name, start, stop⟩ :: ⟨.openParen, start', stop'⟩ :: tokens) b =
      safely (Prod.map b.record id) (Parser.phrase (fuel + 1) .atom
        (⟨.identifier name, start, stop⟩ :: ⟨.openParen, start', stop'⟩ :: tokens)) := by
  cases hname : Primitive.ofName? name with
  | none => simp [Recorder.phrase, Parser.phrase, hname, safely]
  | some f =>
      rw [phrase_call hname]
      simp only [Recorder.phrase, hname]
      rw [ih.phrase hfuel]
      refine safely_bind ?_
      rintro ⟨first, rest⟩ hfirst
      have hlt := length_lt_of_phrase hfirst
      have hrest : 8 * rest.length + 1 ≤ fuel := by omega
      simp only [Prod.map, id_eq]
      rw [ih.moreArguments hrest]
      refine safely_bind ?_
      rintro ⟨others, rest⟩ -
      refine safely_bind fun rest _ => ?_
      have hcall := applied_eq b name f (first :: others)
      rw [recordAll] at hcall
      simp only [Prod.map]
      rw [hcall]
      refine safely_bind fun t ht => ?_
      have hstate := record_applied b ht
      rw [recordAll] at hstate
      rw [← hstate]
      rfl

theorem atom (ih : Records fuel) (hfuel : 8 * tokens.length + 7 ≤ fuel + 1 + 6) :
    Recorder.phrase (fuel + 1) .atom tokens b =
      safely (Prod.map b.record id) (Parser.phrase (fuel + 1) .atom tokens) := by
  cases tokens with
  | nil => rfl
  | cons lexeme after =>
      obtain ⟨token, start, stop⟩ := lexeme
      rw [List.length_cons] at hfuel
      cases token with
      | openParen =>
          rw [phrase_group]
          simp only [Recorder.phrase]
          rw [ih.phrase (by simp only [Level.rank]; omega)]
          refine safely_bind ?_
          rintro ⟨inner, rest⟩ -
          exact safely_bind fun _ _ => rfl
      | identifier name =>
          by_cases hopens : Opens (after.map Lexeme.token)
          · obtain ⟨start', stop', after', rfl⟩ := hopens.exists_cons
            rw [List.length_cons] at hfuel
            exact ih.call (by omega)
          · rw [phrase_identifier fuel name start stop hopens]
            have hidentifier : Recorder.phrase (fuel + 1) .atom
                (⟨.identifier name, start, stop⟩ :: after) b =
                  .ok (b.named name start stop, after) := by
              cases after with
              | nil => rfl
              | cons next rest =>
                  obtain ⟨token, start', stop'⟩ := next
                  cases token with
                  | openParen => exact (hopens trivial).elim
                  | _ => rfl
            rw [hidentifier, ← record_named]
            rfl
      | _ => rfl

theorem moreArguments_succ (ih : Records fuel) (hfuel : 8 * tokens.length + 1 ≤ fuel + 1) :
    Recorder.moreArguments (fuel + 1) tokens b =
      safely (Prod.map b.recordAll id) (Parser.moreArguments (fuel + 1) tokens) := by
  cases tokens with
  | nil => rfl
  | cons lexeme rest =>
      obtain ⟨token, start, stop⟩ := lexeme
      rw [List.length_cons] at hfuel
      cases token with
      | comma =>
          rw [moreArguments_comma]
          simp only [Recorder.moreArguments]
          rw [ih.phrase (by simp only [Level.rank]; omega)]
          refine safely_bind ?_
          rintro ⟨next, after⟩ hnext
          have hlt := length_lt_of_phrase hnext
          have hafter : 8 * after.length + 1 ≤ fuel := by omega
          simp only [Prod.map, id_eq]
          rw [ih.moreArguments hafter]
          exact safely_bind fun _ _ => rfl
      | _ => rfl

end Records

theorem records (fuel : Nat) : Records fuel := by
  induction fuel with
  | zero =>
      refine ⟨fun {level _ _} h => ?_, fun h => by omega, fun h => by omega⟩
      have hrank : level.rank ≤ 6 := by cases level <;> decide
      omega
  | succ fuel ih =>
      refine ⟨fun {level _ _} h => ?_, ih.joined_succ, ih.moreArguments_succ⟩
      cases hlevel : level.isBinary with
      | true => exact ih.binary hlevel h
      | false =>
          cases level with
          | signed => exact ih.signed h
          | atom => exact ih.atom h
          | _ => cases hlevel

/-- The parser with slots reads what the parser reads, or finds the same fault. -/
theorem parse_eq (tokens : List Lexeme) :
    parse tokens = safely (record {}) (Parser.parse tokens) := by
  rw [parse, Parser.parse]
  split
  · rfl
  · rw [(records _).phrase (by simp only [Level.rank]; omega)]
    refine safely_bind ?_
    rintro ⟨t, rest⟩ -
    cases rest <;> rfl

end Recorder

/-! ### Slots -/

def meet (columns : List String) (name : String) : List String :=
  if name ∈ columns then columns else columns ++ [name]

theorem prefix_meet (columns : List String) (name : String) : columns <+: meet columns name := by
  rw [meet]
  split
  · exact List.prefix_rfl
  · exact List.prefix_append _ _

theorem mem_meet (columns : List String) (name : String) : name ∈ meet columns name := by
  rw [meet]
  split
  · assumption
  · exact List.mem_append_right _ List.mem_cons_self

theorem prefix_foldl_meet (names columns : List String) : columns <+: names.foldl meet columns := by
  induction names generalizing columns with
  | nil => exact List.prefix_rfl
  | cons name names ih => exact (prefix_meet columns name).trans (ih _)

theorem foldl_meet (names columns : List String) :
    names.foldl meet columns = columns ++ (firstOccurrences names).filter (· ∉ columns) := by
  induction names generalizing columns with
  | nil => exact (List.append_nil _).symm
  | cons name names ih =>
      rw [List.foldl_cons, ih, firstOccurrences, meet]
      by_cases hmem : name ∈ columns
      · have hskip : ((firstOccurrences names).filter (· ≠ name)).filter (· ∉ columns) =
            (firstOccurrences names).filter (· ∉ columns) := by
          rw [List.filter_filter]
          refine List.filter_congr fun other _ => ?_
          by_cases hother : other = name <;> simp [hother, hmem]
        rw [if_pos hmem, List.filter_cons_of_neg (by simpa using hmem), hskip]
      · rw [if_neg hmem, List.filter_cons_of_pos (by simpa using hmem), List.append_assoc,
          List.singleton_append, List.filter_filter]
        refine congrArg (columns ++ name :: ·) (List.filter_congr fun other _ => ?_)
        by_cases hother : other = name <;> simp [hother]

def Ast.ofTerm : Term Nat → Ast
  | .constant value => .constant value
  | .column slot => .column slot
  | .negate t => .negate (ofTerm t)
  | .not t => .not (ofTerm t)
  | .binary op l r => .binary op (ofTerm l) (ofTerm r)
  | .call f t => .call (.unary f) [ofTerm t]
  | .call₂ f x y => .call (.binary f) [ofTerm x, ofTerm y]

namespace Recorder

def reference (columns : List String) (o : Occurrence) : ColumnReference :=
  ⟨o.start, o.stop, columns.idxOf o.name⟩

theorem bindColumn_eq (b : Recorder) (name : String) (start stop : Nat) :
    b.bindColumn name start stop =
      let columns := meet b.columns name
      (columns.idxOf name,
        ⟨columns, b.spans ++ [⟨start, stop, columns.idxOf name⟩]⟩) := by
  simp only [bindColumn, meet]
  by_cases hmem : name ∈ b.columns
  · have hfound : b.columns.findIdx? (· == name) = some (b.columns.idxOf name) :=
      List.findIdx?_eq_some_iff_findIdx_eq.mpr ⟨List.idxOf_lt_length_of_mem hmem, rfl⟩
    rw [hfound, if_pos hmem]
  · have hfound : b.columns.findIdx? (· == name) = none := by
      rw [List.findIdx?_eq_none_iff]
      intro other hother
      exact beq_eq_false_iff_ne.mpr fun heq => hmem (heq ▸ hother)
    have hslot : (b.columns ++ [name]).idxOf name = b.columns.length := by
      rw [List.idxOf_append_of_notMem hmem, List.idxOf_cons_self, Nat.add_zero]
    rw [hfound, if_neg hmem, hslot]
    simp

theorem columns_record (b : Recorder) (t : Term Occurrence) :
    (b.record t).2.columns = (t.leaves.map Occurrence.name).foldl meet b.columns := by
  induction t generalizing b with
  | constant => rfl
  | column o => simp only [record, bindColumn_eq, Term.leaves, List.map_cons, List.map_nil,
      List.foldl_cons, List.foldl_nil]
  | negate t ih | not t ih | call f t ih => exact ih b
  | binary op l r ihl ihr | call₂ f l r ihl ihr =>
      simp only [record, Term.leaves, List.map_append, List.foldl_append, ihr, ihl]

/-- A term records its own tree and the places of its leaves, with the slots that the columns have
among all those met in the end. -/
theorem record_eq {b : Recorder} {t : Term Occurrence} {columns : List String}
    (h : (b.record t).2.columns <+: columns) :
    (b.record t).1 = Ast.ofTerm (t.map fun o => columns.idxOf o.name) ∧
      (b.record t).2.spans = b.spans ++ t.leaves.map (reference columns) := by
  induction t generalizing b with
  | constant => exact ⟨rfl, (List.append_nil _).symm⟩
  | column o =>
      simp only [record, bindColumn_eq] at h ⊢
      obtain ⟨later, rfl⟩ := h
      have hslot : (meet b.columns o.name ++ later).idxOf o.name =
          (meet b.columns o.name).idxOf o.name := List.idxOf_append_of_mem (mem_meet _ _)
      simp only [Term.map, Ast.ofTerm, Term.leaves, List.map_cons, List.map_nil, reference, hslot,
        and_self]
  | negate t ih | not t ih | call f t ih =>
      obtain ⟨htree, hspans⟩ := ih h
      exact ⟨by rw [record, htree, Term.map, Ast.ofTerm], hspans⟩
  | binary op l r ihl ihr | call₂ f l r ihl ihr =>
      have hleft : (b.record l).2.columns <+: columns := by
        have hright := (b.record l).2.columns_record r
        exact (hright ▸ prefix_foldl_meet _ _ :
          (b.record l).2.columns <+: ((b.record l).2.record r).2.columns).trans h
      obtain ⟨htree, hspans⟩ := ihl hleft
      obtain ⟨htree', hspans'⟩ := ihr h
      refine ⟨by rw [record, htree, htree', Term.map, Ast.ofTerm], ?_⟩
      rw [record, hspans', hspans, Term.leaves, List.map_append, List.append_assoc]

theorem record_ofTerm (source : String) (t : Term Occurrence) :
    ({} : Recorder).record t =
      (Ast.ofTerm (Expression.ofTerm source t).body,
        ⟨(Expression.ofTerm source t).columns, (Expression.ofTerm source t).references⟩) := by
  have hcolumns : (({} : Recorder).record t).2.columns = (Expression.ofTerm source t).columns := by
    rw [columns_record, foldl_meet]
    simp [Expression.ofTerm]
  have hall : (({} : Recorder).record t).2.columns <+: (Expression.ofTerm source t).columns :=
    ⟨[], by rw [List.append_nil, hcolumns]⟩
  obtain ⟨htree, hspans⟩ := record_eq hall
  refine Prod.ext htree ?_
  rw [List.nil_append] at hspans
  exact congrArg₂ Recorder.mk hcolumns hspans

end Recorder
end SelectionPlan
