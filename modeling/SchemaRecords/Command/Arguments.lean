/-!
# Arguments

The arguments behind the name of a command are options and at most one operand, in any
order.  An option begins with two dashes; its value follows an equals sign or is the
next argument, which then must not begin with a dash unless it is a negative number
and the option counts with numbers.  A lone dash is an operand, and so is everything
behind a lone pair of dashes.

Reading goes from left to right and ends at the first argument that is refused, so a
request for help counts only if nothing before it is refused.  What an option means is
told by what it does to a draft of the command.
-/

namespace SchemaRecords.Command

/-- Why arguments are refused, or not even needed. -/
inductive Refusal where
  | help
  | noCommand
  | unknownCommand (argument : String)
  | unknownOption (argument : String)
  | missingValue (option : String)
  | needlessValue (option : String)
  | repeatedOption (option : String)
  | invalidValue (option value : String)
  | missingOption (option : String)
  | missingOperand
  | needlessOperand (argument : String)
  deriving DecidableEq, Repr

/-- The explanation of a refusal. -/
def Refusal.message : Refusal → String
  | .help => "usage: (read | decode | encode) [OPTION]... [OPERAND]"
  | .noCommand => "one of the commands read, decode and encode is required"
  | .unknownCommand argument => "unknown command " ++ argument
  | .unknownOption argument => "unknown option " ++ argument
  | .missingValue option => s!"option --{option} needs a value"
  | .needlessValue option => s!"option --{option} takes no value"
  | .repeatedOption option => s!"option --{option} is given twice"
  | .invalidValue option value => s!"option --{option} has the invalid value {value}"
  | .missingOption option => s!"option --{option} is required"
  | .missingOperand => "an operand is required"
  | .needlessOperand argument => "unexpected operand " ++ argument

/-! ## Single arguments -/

/-- What an argument is by its look. -/
inductive Argument where
  | operand
  | separator
  | help
  | option (name : String) (value : Option String)
  | shortOption
  deriving DecidableEq, Repr

/-- The option that stands behind two dashes. -/
def Argument.ofLong (text : List Char) : Argument :=
  let name := String.ofList (text.takeWhile (· ≠ '='))
  match text.dropWhile (· ≠ '=') with
  | [] => .option name none
  | _ :: value => .option name (some (String.ofList value))

/-- Classify an argument. -/
def Argument.classify (text : List Char) : Argument :=
  match text with
  | ['-', '-'] => .separator
  | '-' :: '-' :: name => if name = "help".toList then .help else .ofLong name
  | '-' :: 'h' :: _ => .help
  | '-' :: _ :: _ => .shortOption
  | _ => .operand

/-- Whether a text is a minus with digits. -/
def isNegativeNumber : List Char → Bool
  | '-' :: first :: rest => first.isDigit && rest.all Char.isDigit
  | _ => false

/-! ## Options -/

/-- What giving an option does to a draft.  A value may be refused. -/
inductive Effect (Draft : Type) where
  | flag (apply : Draft → Draft)
  | value (apply : String → Draft → Option Draft)

/-- An option of a command. -/
structure OptionRule (Draft : Type) where
  name : String
  effect : Effect Draft
  isRepeatable : Bool := false
  isNumeric : Bool := false

/-- Whether the argument behind an option can be its value. -/
def OptionRule.admits {Draft : Type} (rule : OptionRule Draft) (next : String) : Bool :=
  Argument.classify next.toList = .operand || (rule.isNumeric && isNegativeNumber next.toList)

/-! ## Reading -/

/-- What is read so far: the draft, the options that were given, and the operand. -/
structure Reading (Draft : Type) where
  draft : Draft
  given : List String
  operand : Option String

namespace Reading

variable {Draft : Type}

/-- Take note of an option that changes the draft. -/
def give (reading : Reading Draft) (rule : OptionRule Draft) (draft : Draft) :
    Except Refusal (Reading Draft) :=
  if rule.name ∈ reading.given ∧ ¬ rule.isRepeatable then .error (.repeatedOption rule.name)
  else .ok { reading with draft := draft, given := rule.name :: reading.given }

/-- Take note of an option with a value. -/
def giveValue (reading : Reading Draft) (rule : OptionRule Draft)
    (apply : String → Draft → Option Draft) (value : String) : Except Refusal (Reading Draft) :=
  match apply value reading.draft with
  | none => .error (.invalidValue rule.name value)
  | some draft => reading.give rule draft

/-- Take note of an operand. -/
def giveOperand (reading : Reading Draft) (argument : String) : Except Refusal (Reading Draft) :=
  if reading.operand.isSome then .error (.needlessOperand argument)
  else .ok { reading with operand := some argument }

/-- Read arguments one after the other. -/
def readAll (rules : List (OptionRule Draft)) :
    List String → Reading Draft → Except Refusal (Reading Draft)
  | [], reading => .ok reading
  | argument :: rest, reading =>
    match Argument.classify argument.toList with
    | .operand => do readAll rules rest (← reading.giveOperand argument)
    | .separator => rest.foldlM giveOperand reading
    | .help => .error .help
    | .shortOption => .error (.unknownOption argument)
    | .option name attached =>
      match rules.find? fun rule => rule.name = name with
      | none => .error (.unknownOption argument)
      | some rule =>
        match rule.effect, attached, rest with
        | .flag apply, none, rest => do readAll rules rest (← reading.give rule (apply reading.draft))
        | .flag _, some _, _ => .error (.needlessValue name)
        | .value apply, some value, rest => do
          readAll rules rest (← reading.giveValue rule apply value)
        | .value _, none, [] => .error (.missingValue name)
        | .value apply, none, value :: after =>
          if rule.admits value then do readAll rules after (← reading.giveValue rule apply value)
          else .error (.missingValue name)

end Reading
end SchemaRecords.Command
