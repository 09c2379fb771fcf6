import Relabel.Text.Split

/-!
# Arguments

A command line is options, the name of a command, and then the options and operands of that command. An
option starts with a dash. A long option has its value after an equals sign or in the next argument, and
a short one may also have it directly behind its letter. A value in an argument of its own may not start
with a dash, unless it is nothing but the dash. After two dashes everything is an operand. No option but
the class path may be given twice, and a path may not be empty.

Arguments are looked at in their order, so a mistake before a request for help is a mistake, and one after
it goes unnoticed. What is missing is only missed at the end.
-/

set_option autoImplicit false

namespace Relabel

/-- The ways to print a report. -/
inductive ReportFormat where
  | json
  | text
  deriving DecidableEq, Repr

/-- The format with a name. -/
def ReportFormat.ofName? (name : String) : Option ReportFormat :=
  if name = "json" then some .json else if name = "text" then some .text else none

/-- A request to remap an archive. -/
structure RemapRequest where
  input : String
  output? : Option String
  /-- Whether to apply the mapping backwards. -/
  reverse : Bool
  /-- Archives and directories in which supertypes are looked for. -/
  classpath : List String
  format : ReportFormat
  /-- Where the report is written instead of being printed. -/
  report? : Option String
  deriving DecidableEq, Repr

/-- What the program can be asked to do. -/
inductive Command where
  | remap (request : RemapRequest)
  /-- Check the mapping file and print its statistics. -/
  | mappings
  /-- Translate one class name. -/
  | map (name : String) (reverse : Bool)
  deriving DecidableEq, Repr

/-- A command line that makes sense. -/
structure Invocation where
  mappings? : Option String
  command : Command
  deriving DecidableEq, Repr

/-- Why a command line gives no command. -/
inductive NoCommand where
  /-- Help was asked for. -/
  | help
  /-- The command line makes no sense. -/
  | misuse
  deriving DecidableEq, Repr

/-- A summary of all command lines. -/
def usage : String :=
  "Usage: class-remapper [--mappings FILE] COMMAND\n\n"
    ++ "  remap INPUT [-o FILE] [--reverse] [--classpath PATH]... [-f json|text] [--report FILE]\n"
    ++ "  mappings\n"
    ++ "  map NAME [--reverse]\n"

/-! ## Options -/

/-- What an option is for. -/
inductive OptionKind where
  /-- The option asks for help. -/
  | help
  /-- The option stands by itself. -/
  | flag
  /-- The option takes a value that passes a test, and may or may not be given again. -/
  | value (isValid : String → Bool) (repeats : Bool)

namespace OptionKind

/-- The option takes a value. -/
def takesValue : OptionKind → Bool
  | .value .. => true
  | .help | .flag => false

/-- An option that takes a path, which may not be empty. -/
def path : OptionKind := .value (· ≠ "") false

end OptionKind

/-- The names of an option and what it is for. -/
structure OptionRule where
  long : String
  short? : Option Char
  kind : OptionKind

/-- The option that asks for help. -/
def OptionRule.help : OptionRule := ⟨"help", some 'h', .help⟩

/-- The arguments that a command takes: its options, and a test for each of its operands. -/
structure ArgumentRules where
  options : List OptionRule
  operands : List (String → Bool)

/-- A piece of a command line. -/
inductive Argument where
  | flag (name : String)
  | setting (name value : String)
  | operand (text : String)
  deriving DecidableEq, Repr

namespace Argument

/-- The values that an option is set to. -/
def settings (name : String) (arguments : List Argument) : List String :=
  arguments.filterMap fun a =>
    match a with
    | .setting n value => if n = name then some value else none
    | _ => none

/-- The value that an option is set to, if it is. -/
def setting? (name : String) (arguments : List Argument) : Option String :=
  (settings name arguments).head?

/-- Whether a flag is given. -/
def hasFlag (name : String) (arguments : List Argument) : Bool :=
  arguments.contains (.flag name)

/-- The operands. -/
def operands (arguments : List Argument) : List String :=
  arguments.filterMap fun a =>
    match a with
    | .operand text => some text
    | _ => none

end Argument

/-! ## Single arguments

Each is checked against the rules and against the arguments before it, `done`. -/

namespace OptionRule

/-- An option without a value. -/
def flag (o : OptionRule) (done : List Argument) : Except NoCommand Argument :=
  match o.kind with
  | .help => .error .help
  | .flag => if Argument.hasFlag o.long done then .error .misuse else .ok (.flag o.long)
  | .value .. => .error .misuse

/-- An option with a value. -/
def setting (o : OptionRule) (done : List Argument) (value : String) :
    Except NoCommand Argument :=
  match o.kind with
  | .value isValid repeats =>
    if isValid value && (repeats || (Argument.setting? o.long done).isNone) then
      .ok (.setting o.long value)
    else .error .misuse
  | .help | .flag => .error .misuse

end OptionRule

/-- A text that starts with a dash and is more than a dash. -/
def isDashed (word : String) : Bool :=
  match word.toList with
  | '-' :: _ :: _ => true
  | _ => false

namespace ArgumentRules

/-- The next operand. -/
def operand (rules : ArgumentRules) (done : List Argument) (text : String) :
    Except NoCommand Argument :=
  match rules.operands[(Argument.operands done).length]? with
  | some isValid => if isValid text then .ok (.operand text) else .error .misuse
  | none => .error .misuse

/-- The option that a dashed word names, and the value that the word itself holds. -/
def readOption (rules : ArgumentRules) (word : String) :
    Except NoCommand (OptionRule × Option String) :=
  match word.toList with
  | '-' :: '-' :: name =>
    let (name, value?) := match Text.splitAtFirst? '=' (String.ofList name) with
      | some (name, rest) => (name, some (String.ofList rest.toList.tail))
      | none => (String.ofList name, none)
    match rules.options.find? fun o => o.long = name with
    | some o => .ok (o, value?)
    | none => .error .misuse
  | '-' :: letter :: rest =>
    match rules.options.find? fun o => o.short? = some letter with
    | some o =>
      if o.kind.takesValue then
        match rest with
        | [] => .ok (o, none)
        | '=' :: value => .ok (o, some (String.ofList value))
        | value => .ok (o, some (String.ofList value))
      else .ok (o, none)
    | none => .error .misuse
  | _ => .error .misuse

/-! ## Rows of arguments -/

/-- The arguments in some words behind `done`, backwards, where `pending?` still waits for its value. If
`untilOperand` holds, the first operand ends them, and it is given back with what follows it. -/
def scan (rules : ArgumentRules) (untilOperand : Bool) (done : List Argument) :
    Option OptionRule → List String → Except NoCommand (List Argument × List String)
  | none, [] => .ok (done.reverse, [])
  | some _, [] => .error .misuse
  | pending?, word :: rest =>
    if isDashed word then
      if pending?.isSome then .error .misuse
      else if word = "--" then
        if untilOperand then .error .misuse
        else do
          let done ← rest.foldlM (fun done text => return (← rules.operand done text) :: done) done
          return (done.reverse, [])
      else do
        let (option, value?) ← rules.readOption word
        match value? with
        | some value => scan rules untilOperand ((← option.setting done value) :: done) none rest
        | none =>
          if option.kind.takesValue then scan rules untilOperand done (some option) rest
          else scan rules untilOperand ((← option.flag done) :: done) none rest
    else
      match pending? with
      | some option => do
        scan rules untilOperand ((← option.setting done word) :: done) none rest
      | none =>
        if untilOperand then .ok (done.reverse, word :: rest)
        else do scan rules untilOperand ((← rules.operand done word) :: done) none rest

/-- The arguments in all words. -/
def parse (rules : ArgumentRules) (words : List String) : Except NoCommand (List Argument) := do
  return (← rules.scan false [] none words).1

end ArgumentRules

/-! ## Commands -/

namespace Command

/-- The arguments of `remap`. -/
def parseRemap (words : List String) : Except NoCommand Command := do
  let arguments ← ArgumentRules.parse
    { options :=
        [.help, ⟨"output", some 'o', .path⟩, ⟨"reverse", none, .flag⟩,
          ⟨"classpath", none, .value (· ≠ "") true⟩,
          ⟨"format", some 'f', .value (fun name => (ReportFormat.ofName? name).isSome) false⟩,
          ⟨"report", none, .path⟩]
      operands := [(· ≠ "")] } words
  match Argument.operands arguments with
  | [input] =>
    return .remap
      { input := input
        output? := Argument.setting? "output" arguments
        reverse := Argument.hasFlag "reverse" arguments
        classpath := Argument.settings "classpath" arguments
        format := ((Argument.setting? "format" arguments).bind ReportFormat.ofName?).getD .json
        report? := Argument.setting? "report" arguments }
  | _ => throw .misuse

/-- The arguments of `mappings`. -/
def parseMappings (words : List String) : Except NoCommand Command := do
  let _ ← ArgumentRules.parse ⟨[.help], []⟩ words
  return .mappings

/-- The arguments of `map`. -/
def parseMap (words : List String) : Except NoCommand Command := do
  let arguments ← ArgumentRules.parse
    { options := [.help, ⟨"reverse", none, .flag⟩], operands := [fun _ => true] } words
  match Argument.operands arguments with
  | [name] => return .map name (Argument.hasFlag "reverse" arguments)
  | _ => throw .misuse

/-- The names of all commands. -/
def names : List String := ["remap", "mappings", "map", "help"]

/-- A command by its name and its arguments. Help is given on the program or on one command. -/
def parse : List String → Except NoCommand Command
  | "remap" :: words => parseRemap words
  | "mappings" :: words => parseMappings words
  | "map" :: words => parseMap words
  | ["help"] => .error .help
  | ["help", name] => .error (if names.contains name then .help else .misuse)
  | _ => .error .misuse

end Command

/-- A command line. -/
def Invocation.parse (words : List String) : Except NoCommand Invocation := do
  let rules : ArgumentRules := ⟨[.help, ⟨"mappings", none, .path⟩], []⟩
  let (arguments, rest) ← rules.scan true [] none words
  return ⟨Argument.setting? "mappings" arguments, ← Command.parse rest⟩

end Relabel
