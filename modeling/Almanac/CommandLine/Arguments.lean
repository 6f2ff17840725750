import Almanac.Text.Form

/-!
# Command line arguments

An invocation names a command; options and operands may be mixed. The value of an option follows
it as the next argument or after an equals sign, and after a one-letter option also directly. An
argument that starts with a hyphen is never a value or operand, unless `--` stands before it.

The arguments are read from left to right, and the first fault or request for help or for the
version decides.
-/

namespace Almanac.CommandLine

open Text

/-- Why there is no command to run. -/
inductive Stop
  /-- The arguments are no invocation. -/
  | usage
  | help
  | version
deriving DecidableEq, Repr

inductive ValueKind
  | int
  | date
  | datetime
deriving DecidableEq, Repr

inductive SetOperation
  | union (lowest : Bool)
  | intersection
  | complement
deriving DecidableEq, Repr

inductive Command
  | next (name : Option String) (count : Nat) (now timezone : Option String) (json : Bool)
  | intervals (operation : SetOperation) (kind : ValueKind) (texts : List String)
  | daylight (timezone : Option String) (year : Int)
deriving DecidableEq, Repr

structure Invocation where
  config : String
  command : Command
deriving DecidableEq, Repr

/-- An option: its names, whether a value follows, and which values it takes. -/
structure OptionSpec where
  long : String
  short : Option Char := none
  hasValue : Bool := true
  accepts : String → Bool := fun _ => true

/-- The options of a command, and which operands it takes after how many others. -/
structure CommandSpec where
  options : List OptionSpec
  operand : Nat → String → Bool

/-- What the arguments of a command give: options with their values and operands, in order. -/
structure Given where
  options : List (String × String) := []
  operands : List String := []

/-- The integer that a text denotes, if it lies between two others. -/
def integerBetween? (least greatest : Int) (s : String) : Option Int := do
  let i ← (readInteger s.toList).toOption
  if least ≤ i ∧ i ≤ greatest then some i else none

def count? (s : String) : Option Nat := (integerBetween? 0 4294967295 s).map Int.toNat

def year? (s : String) : Option Int := integerBetween? (-2147483648) 2147483647 s

def ValueKind.ofName? : String → Option ValueKind
  | "int" => some int
  | "date" => some date
  | "datetime" => some datetime
  | _ => none

namespace OptionSpec

def config : OptionSpec :=
  { long := "config", short := some 'c', accepts := fun s => !s.isEmpty }

def timezone : OptionSpec := { long := "timezone", short := some 't' }

def kind : OptionSpec := { long := "kind", accepts := fun s => (ValueKind.ofName? s).isSome }

end OptionSpec

namespace Given

/-- One more option with its value; no option may be given twice. -/
def addOption (g : Given) (o : OptionSpec) (value : String) : Except Stop Given :=
  if (g.options.lookup o.long).isSome ∨ !o.accepts value then .error .usage
  else .ok { g with options := g.options ++ [(o.long, value)] }

def addOperand (g : Given) (spec : CommandSpec) (s : String) : Except Stop Given :=
  if spec.operand g.operands.length s then .ok { g with operands := g.operands ++ [s] }
  else .error .usage

def value? (g : Given) (long : String) : Option String := g.options.lookup long

def has (g : Given) (long : String) : Bool := (g.value? long).isSome

end Given

/-- The shape of an argument. -/
inductive Argument
  /-- A double hyphen, after which all arguments are operands. -/
  | separator
  /-- A name after a double hyphen, and the value after its equals sign. -/
  | long (name : String) (value : Option String)
  /-- A letter after a hyphen, and what follows it. -/
  | short (letter : Char) (rest : List Char)
  | operand (s : String)
deriving DecidableEq, Repr

/-- The shape of an argument. A hyphen alone is an operand. -/
def Argument.ofString (s : String) : Argument :=
  match s.toList with
  | ['-', '-'] => separator
  | '-' :: '-' :: rest =>
    let name := String.ofList (rest.takeWhile (· != '='))
    match rest.dropWhile (· != '=') with
    | _ :: value => long name (some (String.ofList value))
    | [] => long name none
  | '-' :: letter :: rest => short letter rest
  | _ => operand s

def Argument.isValue (s : String) : Bool :=
  match ofString s with
  | operand _ => true
  | _ => false

/-- The value directly after a one-letter option, with or without an equals sign. -/
def attached : List Char → Option String
  | [] => none
  | '=' :: rest => some (String.ofList rest)
  | rest => some (String.ofList rest)

/-- The operands after a separator. -/
def readOperands (spec : CommandSpec) (g : Given) (args : List String) : Except Stop Given :=
  args.foldlM (fun g s => g.addOperand spec s) g

/-- What an argument asks for: an option with its value, an option whose value is the next
argument, an operand, or that all others be operands. -/
inductive Request
  | option (o : OptionSpec) (value : String)
  | pending (o : OptionSpec)
  | operand (s : String)
  | operands

/-- An option with the value attached to it. -/
def requestOption (o : OptionSpec) (value : Option String) : Except Stop Request :=
  match o.hasValue, value with
  | false, none => .ok (.option o "")
  | false, some _ => .error .usage
  | true, some v => .ok (.option o v)
  | true, none => .ok (.pending o)

def request (options : List OptionSpec) (arg : String) : Except Stop Request :=
  match Argument.ofString arg with
  | .separator => .ok .operands
  | .operand s => .ok (.operand s)
  | .long name value =>
    if name = "help" ∧ value = none then .error .help
    else
      match options.find? (·.long == name) with
      | some o => requestOption o value
      | none => .error .usage
  | .short letter following =>
    if letter = 'h' then .error .help
    else
      match options.find? (·.short == some letter) with
      | some o =>
        if o.hasValue then requestOption o (attached following) else .ok (.option o "")
      | none => .error .usage

/-- The arguments of a command, where an option read before may be waiting for its value. -/
def readArguments (spec : CommandSpec) :
    Option OptionSpec → Given → List String → Except Stop Given
  | none, g, [] => .ok g
  | some _, _, [] => .error .usage
  | some o, g, arg :: rest =>
    if Argument.isValue arg then
      match g.addOption o arg with
      | .ok g => readArguments spec none g rest
      | .error stop => .error stop
    else .error .usage
  | none, g, arg :: rest =>
    match request spec.options arg with
    | .error stop => .error stop
    | .ok .operands => readOperands spec g rest
    | .ok (.pending o) => readArguments spec (some o) g rest
    | .ok (.operand s) =>
      match g.addOperand spec s with
      | .ok g => readArguments spec none g rest
      | .error stop => .error stop
    | .ok (.option o value) =>
      match g.addOption o value with
      | .ok g => readArguments spec none g rest
      | .error stop => .error stop

def commandSpec? : String → Option CommandSpec
  | "next" => some
    { options :=
        [.config, { long := "name" },
          { long := "count", short := some 'n', accepts := fun s => (count? s).isSome },
          { long := "now" }, .timezone, { long := "json", hasValue := false }]
      operand := fun _ _ => false }
  | "union" => some
    { options := [.config, { long := "lowest", hasValue := false }, .kind]
      operand := fun _ _ => true }
  | "intersect" | "complement" => some
    { options := [.config, .kind], operand := fun _ _ => true }
  | "daylight" => some
    { options := [.config, .timezone]
      operand := fun n s => n == 0 && (year? s).isSome }
  | _ => none

/-- The kind of values that the intervals have; integers unless another one is given. -/
def Given.kind (g : Given) : ValueKind := ((g.value? "kind").bind ValueKind.ofName?).getD .int

/-- A set operation on the operands, of which there has to be one. -/
def Given.intervals (g : Given) (operation : SetOperation) : Except Stop Command :=
  if g.operands.isEmpty then .error .usage
  else .ok (.intervals operation g.kind g.operands)

def Command.ofGiven (name : String) (g : Given) : Except Stop Command :=
  match name with
  | "next" =>
    .ok (.next (g.value? "name") (((g.value? "count").bind count?).getD 1) (g.value? "now")
      (g.value? "timezone") (g.has "json"))
  | "union" => g.intervals (.union (g.has "lowest"))
  | "intersect" => g.intervals .intersection
  | "complement" => g.intervals .complement
  | "daylight" =>
    match g.operands.head?.bind year? with
    | some year => .ok (.daylight (g.value? "timezone") year)
    | none => .error .usage
  | _ => .error .usage

/-- The invocation once the command is named. A configuration file given after the command wins
over one given before. -/
def readCommand (before : Given) (name : String) (args : List String) : Except Stop Invocation :=
  match commandSpec? name with
  | some spec => do
    let g ← readArguments spec none {} args
    let command ← Command.ofGiven name g
    let config := ((g.value? "config").or (before.value? "config")).getD "chronoset.toml"
    return { config, command }
  | none =>
    if name = "help" ∧ args.all (fun a => (commandSpec? a).isSome) then .error .help
    else .error .usage

def leadingOptions : List OptionSpec :=
  [.config, { long := "version", short := some 'V', hasValue := false }]

/-- The invocation that the arguments of the program give, where an option read before may be
waiting for its value. -/
def readLeading : Option OptionSpec → Given → List String → Except Stop Invocation
  | _, _, [] => .error .usage
  | some o, g, arg :: rest =>
    if Argument.isValue arg then
      match g.addOption o arg with
      | .ok g => readLeading none g rest
      | .error stop => .error stop
    else .error .usage
  | none, g, arg :: rest =>
    match request leadingOptions arg with
    | .error stop => .error stop
    | .ok .operands => .error .usage
    | .ok (.pending o) => readLeading (some o) g rest
    | .ok (.operand name) => readCommand g name rest
    | .ok (.option o value) =>
      if o.hasValue then
        match g.addOption o value with
        | .ok g => readLeading none g rest
        | .error stop => .error stop
      else .error .version

def readInvocation (args : List String) : Except Stop Invocation := readLeading none {} args

end Almanac.CommandLine
