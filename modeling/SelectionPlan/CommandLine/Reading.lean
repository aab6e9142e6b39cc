import SelectionPlan.CommandLine.Level
/-!
# Reading arguments

The arguments name a command, and for some commands a second one below it, with options at any
level.  Options that take a value take the next argument, or the text after `=` or after the
letter of the option.  After `--` every argument is an operand.
-/

namespace SelectionPlan
namespace CommandLine

structure Reading where
  level : Level
  values : List (Slot × String) := []
  /-- What the latest value is for, and the value unless it is still to come. -/
  pending : Option (Slot × Option String) := none
  /-- Whether an option without a value was given. -/
  hasFlag : Bool := false
  operandsOnly : Bool := false
  deriving DecidableEq, Repr

namespace Reading

def accept (r : Reading) (slot : Slot) (text : String) : Except ArgumentFault Reading :=
  if r.values.any fun (s, _) => s == slot then .error .repeatedOption
  else if !r.level.accepts slot text then .error .invalidValue
  else .ok { r with values := r.values ++ [(slot, text)] }

def settle (r : Reading) : Except ArgumentFault Reading :=
  let settled := { r with pending := none }
  match r.pending with
  | none => .ok r
  | some (_, none) => .error .invalidValue
  | some (slot, some text) => settled.accept slot text

def awaitsValue (r : Reading) : Bool :=
  !r.operandsOnly && match r.pending with
    | some (_, none) => true
    | _ => false

def hasOperand (r : Reading) : Bool :=
  (r.values.any fun (s, _) => s == .operand) ||
    match r.pending with
    | some (.operand, _) => true
    | _ => false

def takeOption (r : Reading) (kind : OptionKind) (attached : Option String) :
    Except ArgumentFault Reading :=
  match kind, attached with
  | .value slot, some text => do (← r.settle).accept slot text
  | .value slot, none => do return { ← r.settle with pending := some (slot, none) }
  | _, some _ => .error .unwantedValue
  | .debug, none => do return { ← r.settle with hasFlag := true }
  | .help, none => do
    let _ ← r.settle
    throw .helpAsked
  | .version, none => do
    let _ ← r.settle
    throw .versionAsked

def takeLong (r : Reading) (cs : List Char) : Except ArgumentFault Reading :=
  let name := cs.takeWhile (· != '=')
  let attached := match cs.drop name.length with
    | [] => none
    | _ :: text => some (String.ofList text)
  match r.level.longOption? (String.ofList name) with
  | none => .error .unknownArgument
  | some kind => r.takeOption kind attached

/-- The letters of an argument after its dash.  The letter of an option with a value takes the rest
as the value, if there is a rest. -/
def takeShort (r : Reading) : List Char → Except ArgumentFault Reading
  | [] => .ok r
  | c :: rest =>
    match r.level.shortOption? c with
    | none => .error .unknownArgument
    | some (.value slot) =>
      let attached := match rest with
        | [] => none
        | '=' :: text => some (String.ofList text)
        | text => some (String.ofList text)
      r.takeOption (.value slot) attached
    | some kind => do (← r.takeOption kind none).takeShort rest

def takeOperand (r : Reading) (text : String) : Except ArgumentFault Reading := do
  if r.level.takesOperand && !r.hasOperand then
    return { ← r.settle with pending := some (.operand, some text) }
  else if r.operandsOnly && (r.level.command? text).isSome then throw .unknownArgument
  else if r.level.commands.isEmpty then throw .unknownArgument
  else throw .unknownCommand

def take (r : Reading) (text : String) : Except ArgumentFault Reading :=
  if r.operandsOnly then r.takeOperand text
  else
    match text.toList, r.pending with
    | ['-', '-'], _ => .ok { r with operandsOnly := true }
    | '-' :: '-' :: name, _ => r.takeLong name
    | '-' :: c :: letters, _ => r.takeShort (c :: letters)
    | _, some (slot, none) => .ok { r with pending := some (slot, some text) }
    | _, _ => r.takeOperand text

def finish (r : Reading) : Except ArgumentFault Reading := do
  let r ← r.settle
  if r.level = .config then
    throw (if r.values.isEmpty && !r.hasFlag then .groupAlone else .missingCommand)
  if r.level.takesOperand && !r.hasOperand then throw .missingOperand
  return r

/-- Reads the arguments of a level.  The answer has a reading for the level and for every one below
it that was named. -/
def readAll (r : Reading) : List String → Except ArgumentFault (List Reading)
  | [] => do return [← r.finish]
  | text :: rest =>
    match if r.operandsOnly || r.awaitsValue then none else r.level.command? text with
    | some .help => .error (r.level.helpFault rest)
    | some level => do
      let below ← readAll { level } rest
      return (← r.settle) :: below
    | none => do (← r.take text).readAll rest

end Reading

end CommandLine
end SelectionPlan
