import SelectionPlan.Graph.Dot
import Mathlib.Data.List.Basic

/-!
# Reading DOT

A reader of the part of DOT that graphs are written in.  It goes over the text once and cuts it into
words, quoted strings and marks.  A quoted string ends at the first quote that no backslash comes
before.  Statements end at semicolons outside of such strings.
-/

namespace SelectionPlan
namespace Dot

/-! ### Tokens -/

inductive Token
  | word (text : List Char)
  /-- A quoted string, without its quotes and with its escapes resolved. -/
  | quoted (text : List Char)
  | arrow
  | mark (c : Char)
  deriving DecidableEq, Repr

inductive Mode
  | between
  | word (text : List Char)
  | quoted (text : List Char)
  /-- Behind a backslash in a quoted string. -/
  | escape (text : List Char)
  /-- Behind a dash, which may be the first half of an arrow. -/
  | dash
  deriving DecidableEq, Repr

def isBlank (c : Char) : Bool := c == ' ' || c == '\n' || c == '\t' || c == '\r'

def isWordChar (c : Char) : Bool := c.isAlphanum || c == '_'

def opening (c : Char) : List Token × Mode :=
  if isBlank c then ([], .between)
  else if c = '"' then ([], .quoted [])
  else if c = '-' then ([], .dash)
  else if isWordChar c then ([], .word [c])
  else ([.mark c], .between)

def unescape (c : Char) : Char := if c = 'n' then '\n' else c

def step : Mode → Char → List Token × Mode
  | .between, c => opening c
  | .word text, c =>
    if isWordChar c then ([], .word (text ++ [c])) else (.word text :: (opening c).1, (opening c).2)
  | .quoted text, c =>
    if c = '\\' then ([], .escape text)
    else if c = '"' then ([.quoted text], .between)
    else ([], .quoted (text ++ [c]))
  | .escape text, c => ([], .quoted (text ++ [unescape c]))
  | .dash, c =>
    if c = '>' then ([.arrow], .between) else (.mark '-' :: (opening c).1, (opening c).2)

def scan (mode : Mode) : List Char → List Token × Mode
  | [] => ([], mode)
  | c :: rest =>
    let one := step mode c
    let others := scan one.2 rest
    (one.1 ++ others.1, others.2)

/-- The tokens of a text, unless a quoted string in it has no end. -/
def lex (text : List Char) : Option (List Token) :=
  match scan .between text with
  | (tokens, .between) => some tokens
  | (tokens, .word text) => some (tokens ++ [.word text])
  | (tokens, .dash) => some (tokens ++ [.mark '-'])
  | (_, .quoted _) | (_, .escape _) => none

/-! ### Statements -/

abbrev Attributes := List (String × String)

inductive Statement
  | setting (name value : String)
  | node (name : String) (attributes : Attributes)
  | edge (source target : String) (attributes : Attributes)
  deriving DecidableEq, Repr

def Token.value? : Token → Option String
  | .word text | .quoted text => some (String.ofList text)
  | _ => none

def attributesWithin : List Token → Option Attributes
  | [.word name, .mark '=', value, .mark ']'] =>
    value.value?.map fun value => [(String.ofList name, value)]
  | .word name :: .mark '=' :: value :: .mark ',' :: rest => do
    let value ← value.value?
    let others ← attributesWithin rest
    return (String.ofList name, value) :: others
  | _ => none

def attributes? : List Token → Option Attributes
  | [] => some []
  | .mark '[' :: rest => attributesWithin rest
  | _ => none

def statement? : List Token → Option Statement
  | [.word name, .mark '=', .word value] => some (.setting (String.ofList name) (String.ofList value))
  | .word source :: .arrow :: .word target :: rest =>
    (attributes? rest).map (.edge (String.ofList source) (String.ofList target))
  | .word name :: rest => (attributes? rest).map (.node (String.ofList name))
  | _ => none

def statementsWithin (pending : List Token) : List Token → Option (List Statement)
  | [] => none
  | token :: rest =>
    if token = .mark ';' then do
      let first ← statement? pending
      let others ← statementsWithin [] rest
      return first :: others
    else if token = .mark '\x7d' then
      if pending.isEmpty && rest.isEmpty then some [] else none
    else statementsWithin (pending ++ [token]) rest

def read (text : String) : Option (String × List Statement) := do
  match ← lex text.toList with
  | .word kind :: .word name :: .mark '\x7b' :: body =>
    if kind = "digraph".toList then
      let statements ← statementsWithin [] body
      return (String.ofList name, statements)
    else none
  | _ => none

/-! ### Reading in parts -/

section Scanning

variable {mode next last : Mode} {tokens more : List Token} {xs ys : List Char}

theorem scan_cons {c : Char} (h : step mode c = (tokens, next))
    (h' : scan next xs = (more, last)) : scan mode (c :: xs) = (tokens ++ more, last) := by
  simp only [scan, h, h']

theorem scan_trans (h : scan mode xs = (tokens, next)) (h' : scan next ys = (more, last)) :
    scan mode (xs ++ ys) = (tokens ++ more, last) := by
  induction xs generalizing mode tokens with
  | nil =>
      cases h
      exact h'
  | cons c xs ih =>
      cases h
      rw [List.append_assoc]
      exact scan_cons rfl (ih rfl)

theorem scan_flatMap {α : Type} {f : α → List Char} {g : α → List Token} {zs : List α}
    (h : ∀ z ∈ zs, scan mode (f z) = (g z, mode)) :
    scan mode (zs.flatMap f) = (zs.flatMap g, mode) := by
  induction zs with
  | nil => rfl
  | cons z zs ih =>
      rw [List.forall_mem_cons] at h
      rw [List.flatMap_cons, List.flatMap_cons]
      exact scan_trans h.1 (ih h.2)

theorem scan_word {text : List Char} (h : ∀ c ∈ xs, isWordChar c = true) :
    scan (.word text) xs = ([], .word (text ++ xs)) := by
  induction xs generalizing text with
  | nil => rw [scan, List.append_nil]
  | cons c xs ih =>
      rw [List.forall_mem_cons] at h
      have hstep : step (.word text) c = ([], .word (text ++ [c])) := if_pos h.1
      rw [List.append_cons]
      exact scan_cons hstep (ih h.2)

theorem scan_plain {text : List Char} (h : ∀ c ∈ xs, c ≠ '\\' ∧ c ≠ '"') :
    scan (.quoted text) xs = ([], .quoted (text ++ xs)) := by
  induction xs generalizing text with
  | nil => rw [scan, List.append_nil]
  | cons c xs ih =>
      rw [List.forall_mem_cons] at h
      have hstep : step (.quoted text) c = ([], .quoted (text ++ [c])) := by
        rw [step, if_neg h.1.1, if_neg h.1.2]
      rw [List.append_cons]
      exact scan_cons hstep (ih h.2)

def escapeChars : List Char → List Char
  | [] => []
  | c :: rest => if c = '\\' ∨ c = '"' then '\\' :: c :: escapeChars rest else c :: escapeChars rest

/-- Escaping the quotes leaves the escaped backslashes as they are. -/
theorem escapeChar_escapeChar (text : List Char) :
    escapeChar '"' (escapeChar '\\' text) = escapeChars text := by
  induction text with
  | nil => rfl
  | cons c rest ih =>
      rw [escapeChars, ← ih]
      by_cases hbackslash : c = '\\'
      · subst hbackslash
        rfl
      · by_cases hquote : c = '"'
        · subst hquote
          rfl
        · simp [escapeChar, hbackslash, hquote]

/-- Inside quotes an escaped text stands for the text and does not end the string. -/
theorem scan_escapeChars (text xs : List Char) :
    scan (.quoted text) (escapeChars xs) = ([], .quoted (text ++ xs)) := by
  induction xs generalizing text with
  | nil => rw [escapeChars, scan, List.append_nil]
  | cons c xs ih =>
      rw [List.append_cons, escapeChars]
      by_cases hc : c = '\\' ∨ c = '"'
      · have hsame : unescape c = c := by
          rcases hc with rfl | rfl <;> rfl
        have hstep : step (.escape text) c = ([], .quoted (text ++ [c])) := by rw [step, hsame]
        rw [if_pos hc]
        exact scan_cons rfl (scan_cons hstep (ih _))
      · have hplain := not_or.mp hc
        have hstep : step (.quoted text) c = ([], .quoted (text ++ [c])) := by
          rw [step, if_neg hplain.1, if_neg hplain.2]
        rw [if_neg hc]
        exact scan_cons hstep (ih _)

end Scanning

theorem statementsWithin_statement {pending tokens : List Token} {s : Statement}
    (htokens : ∀ token ∈ tokens, token ≠ .mark ';' ∧ token ≠ .mark '\x7d')
    (hs : statement? (pending ++ tokens) = some s) (rest : List Token) :
    statementsWithin pending (tokens ++ .mark ';' :: rest) =
      (statementsWithin [] rest).map (s :: ·) := by
  induction tokens generalizing pending with
  | nil =>
      rw [List.append_nil] at hs
      rw [List.nil_append, statementsWithin, if_pos rfl, hs]
      cases statementsWithin [] rest <;> rfl
  | cons token tokens ih =>
      rw [List.forall_mem_cons] at htokens
      rw [List.cons_append, statementsWithin, if_neg htokens.1.1, if_neg htokens.1.2]
      apply ih htokens.2
      rwa [List.append_assoc, List.singleton_append]

theorem statementsWithin_flatMap {α : Type} {f : α → List Token} {g : α → Statement} {zs : List α}
    (htokens : ∀ z ∈ zs, ∀ token ∈ f z, token ≠ .mark ';' ∧ token ≠ .mark '\x7d')
    (hs : ∀ z ∈ zs, statement? (f z) = some (g z)) (rest : List Token) :
    statementsWithin [] ((zs.flatMap fun z => f z ++ [.mark ';']) ++ rest) =
      (statementsWithin [] rest).map (zs.map g ++ ·) := by
  induction zs with
  | nil => simp
  | cons z zs ih =>
      rw [List.forall_mem_cons] at htokens hs
      rw [List.flatMap_cons, List.append_assoc, List.append_assoc, List.singleton_append,
        statementsWithin_statement htokens.1 hs.1, ih htokens.2 hs.2, Option.map_map]
      rfl

end Dot
end SelectionPlan
