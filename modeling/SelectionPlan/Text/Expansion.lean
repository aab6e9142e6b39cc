import SelectionPlan.Text.Letters
/-!
# Variables in paths

A path may start with `~` for the home directory and may name variables of the environment as
`$NAME` or `$\x7bNAME\x7d`, with a text to use instead of a missing one as `$\x7bNAME:-text\x7d`.
-/

namespace SelectionPlan

abbrev Environment := List (String × String)

def Environment.find? (env : Environment) (name : String) : Option String :=
  (List.find? (fun (n, _) => n == name) env).map Prod.snd

namespace Expansion

def isNameChar (c : Char) : Bool := isAlphanumeric c || c == '_'

def splitDefault : List Char → Option (List Char × List Char)
  | [] => none
  | ':' :: '-' :: rest => some ([], rest)
  | c :: rest => (splitDefault rest).map fun (name, text) => (c :: name, text)

/-- What stands for the inside of braces.  A variable with an empty value is left as it is written
unless it comes with a text to use instead. -/
def braced? (env : Environment) (inside : List Char) : Option (List Char) :=
  let (name, default) := match splitDefault inside with
    | some (c :: name, text) => (c :: name, some text)
    | _ => (inside, none)
  match env.find? (String.ofList name), default with
  | some value, default =>
    if value ≠ "" then some value.toList
    else some (default.getD ('$' :: '\x7b' :: inside ++ ['\x7d']))
  | none, default => default

/-- A text with the values of its variables, unless one of them is missing.  The first argument is
the number of characters to pass over. -/
def substitute? (env : Environment) : (skip : Nat) → List Char → Option (List Char)
  | _, [] => some []
  | skip + 1, _ :: rest => substitute? env skip rest
  | 0, '$' :: rest =>
    match rest with
    | '\x7b' :: more =>
      let inside := more.takeWhile (· != '\x7d')
      if inside.length = more.length then
        (substitute? env 1 rest).map fun text => '$' :: '\x7b' :: text
      else do
        let value ← braced? env inside
        return value ++ (← substitute? env (inside.length + 2) rest)
    | '$' :: _ => (substitute? env 1 rest).map ('$' :: ·)
    | _ =>
      let name := rest.takeWhile isNameChar
      if name.isEmpty then (substitute? env 0 rest).map ('$' :: ·)
      else do
        let value ← env.find? (String.ofList name)
        return value.toList ++ (← substitute? env name.length rest)
  | 0, c :: rest => (substitute? env 0 rest).map (c :: ·)

def home (env : Environment) (cs : List Char) : List Char :=
  match cs, env.find? "HOME" with
  | ['~'], some directory => directory.toList
  | '~' :: '/' :: rest, some directory => directory.toList ++ '/' :: rest
  | cs, _ => cs

end Expansion

def Expansion.names (text : String) : List String :=
  ((text.splitOn "$").drop 1).map fun part =>
    let cs := part.toList.dropWhile (· == '\x7b')
    String.ofList (cs.takeWhile isNameChar)

/-- A path with its variables and home directory put in.  A path that names a missing variable
stays as it is, and a `~` that comes from the value of a variable is no home directory. -/
def Environment.expand (env : Environment) (path : String) : String :=
  let cs := path.toList
  match Expansion.substitute? env 0 cs with
  | none => path
  | some expanded =>
    String.ofList (if cs.head? = some '~' then Expansion.home env expanded else expanded)

end SelectionPlan
