import SatSearch.CommandLine.Options

/-!
# Reading arguments

A command line consists of options, of words without a dash in front, and perhaps of a command with
options and words of its own. Long options are written `--name`, short ones `-n`, and short ones may
be bundled. The value of an option follows after an equals sign, directly after a short option, or
as the next argument, which then must not look like an option. After `--`, everything is a word. In
place of a command, `help` may stand, with the name of a command or without.

Arguments are read from left to right, and the first thing that is wrong, or the first request for
the version or for help, decides.
-/

namespace SatSearch

inductive UsageError where
  | unknownOption (name : String)
  | missingValue (name : String)
  | needlessValue (name : String)
  | badValue (name value : String)
  | repeatedOption (name : String)
  | missingOption (name : String)
  | unexpectedWord (word : String)
  | unknownCommand (name : String)
deriving DecidableEq, Repr

def UsageError.message : UsageError → String
  | unknownOption name => s!"error: unexpected argument '{name}' found\n"
  | missingValue name => s!"error: a value is required for '{name}' but none was supplied\n"
  | needlessValue name => s!"error: unexpected value for '{name}' found\n"
  | badValue name value => s!"error: invalid value '{value}' for '{name}'\n"
  | repeatedOption name => s!"error: the argument '{name}' cannot be used multiple times\n"
  | missingOption name => s!"error: the required argument '{name}' was not provided\n"
  | unexpectedWord word => s!"error: unexpected argument '{word}' found\n"
  | unknownCommand name => s!"error: unrecognized command '{name}'\n"

/-- Everything that arguments can set, as far as it has been set. -/
structure Draft where
  word : Option String := none
  verbosity : Nat := 0
  debug : Bool := false
  printSolution : Bool := false
  verify : Option Bool := none
  stats : Option Bool := none
  reduction : Option Reduction := none
  selection : Option Selection := none
  stepLimit : Option Nat := none
  timeout : Option Nat := none
  path : Option String := none
  input : Option String := none
  candidates : Option (List Nat) := none
  numClauses : Option Nat := none
  numVars : Option Nat := none
  seed : Option Nat := none
  output : Option String := none
  clauseRange : Option StepRange := none
  variableRange : Option StepRange := none
  repeats : Option Nat := none
  shell : Option Shell := none

inductive OptionAction where
  | flag (set : Draft → Except UsageError Draft)
  | value (set : String → Draft → Except UsageError Draft)
  | version
  | help

structure OptionRule where
  long : String
  short : Option Char
  action : OptionAction

namespace OptionRule

/-- A value that may be given once, with the way to read and to keep it. -/
def once {α : Type} (long : String) (short : Option Char) (read? : String → Option α)
    (get : Draft → Option α) (set : α → Draft → Draft) : OptionRule where
  long := long
  short := short
  action := .value fun text d =>
    if (get d).isSome then .error (.repeatedOption long)
    else match read? text with
      | some a => .ok (set a d)
      | none => .error (.badValue long text)

def flagOnce (long : String) (short : Option Char) (get : Draft → Bool) (set : Draft → Draft) :
    OptionRule where
  long := long
  short := short
  action := .flag fun d => if get d then .error (.repeatedOption long) else .ok (set d)

def bool? : String → Option Bool
  | "true" => some true
  | "false" => some false
  | _ => none

def count? (text : String) : Option Nat := Decimal.unsigned? maxCount text.toList

def path? (text : String) : Option String := if text.isEmpty then none else some text

/-- Reads variables of 32 bits, separated by commas. A variable is read as an integer that is not
negative, so a sign is allowed. -/
def vars? (text : String) : Option (List Nat) :=
  (text.toList.splitOn ',').mapM fun part =>
    (Decimal.signed? 0 4294967295 part).map Int.toNat

def common : List OptionRule := [
  flagOnce "debug" (some 'd') (·.debug) fun d => { d with debug := true },
  once "verify" none bool? (·.verify) fun b d => { d with verify := some b },
  once "stats" (some 's') bool? (·.stats) fun b d => { d with stats := some b },
  flagOnce "print-solution" (some 'p') (·.printSolution) fun d => { d with printSolution := true },
  once "reduction" none (fun s => (Reduction.ofName false s).toOption) (·.reduction)
    fun r d => { d with reduction := some r },
  once "selection" none (fun s => (Selection.ofName false s).toOption) (·.selection)
    fun s d => { d with selection := some s },
  once "step-limit" none count? (·.stepLimit) fun n d => { d with stepLimit := some n },
  once "timeout-ms" none count? (·.timeout) fun n d => { d with timeout := some n }]

def everywhere : List OptionRule := [
  ⟨"verbose", some 'v', .flag fun d => .ok { d with verbosity := d.verbosity + 1 }⟩,
  ⟨"help", some 'h', .help⟩]

def top : List OptionRule := everywhere ++ common ++ [⟨"version", some 'V', .version⟩]

def file : List OptionRule := everywhere ++ common ++ [
  once "path" none path? (·.path) fun s d => { d with path := some s }]

/-- The options after the command for text. Its variables may be given several times, and add up. -/
def text : List OptionRule := everywhere ++ common ++ [
  once "input" (some 'i') some (·.input) fun s d => { d with input := some s },
  ⟨"variables", none, .value fun s d => match vars? s with
    | some vs => .ok { d with candidates := some (d.candidates.getD [] ++ vs) }
    | none => .error (.badValue "variables" s)⟩]

def seed : OptionRule := once "seed" none count? (·.seed) fun n d => { d with seed := some n }

def random : List OptionRule := everywhere ++ common ++ [
  once "clauses" (some 'm') count? (·.numClauses) fun n d => { d with numClauses := some n },
  once "variables" (some 'n') count? (·.numVars) fun n d => { d with numVars := some n },
  seed,
  once "export-dimacs" none path? (·.output) fun s d => { d with output := some s }]

def sweep : List OptionRule := everywhere ++ common ++ [
  once "clauses" (some 'm') (fun s => (StepRange.ofText s).toOption) (·.clauseRange)
    fun r d => { d with clauseRange := some r },
  once "variables" (some 'n') (fun s => (StepRange.ofText s).toOption) (·.variableRange)
    fun r d => { d with variableRange := some r },
  once "repeats" (some 'r') count? (·.repeats) fun n d => { d with repeats := some n },
  seed,
  once "output" (some 'o') path? (·.output) fun s d => { d with output := some s }]

def findLong (rules : List OptionRule) (name : String) : Option OptionRule :=
  rules.find? (·.long = name)

def findShort (rules : List OptionRule) (c : Char) : Option OptionRule :=
  rules.find? (·.short = some c)

end OptionRule

inductive CommandName where
  | file
  | text
  | random
  | sweep
  | completions
deriving DecidableEq, Repr

namespace CommandName

def ofText? : String → Option CommandName
  | "file" => some file
  | "text" => some text
  | "random" => some random
  | "sweep" => some sweep
  | "completions" => some completions
  | _ => none

def rules : CommandName → List OptionRule
  | file => OptionRule.file
  | text => OptionRule.text
  | random => OptionRule.random
  | sweep => OptionRule.sweep
  | completions => OptionRule.everywhere

end CommandName

/-- The grammar of one level of a command line. -/
structure Grammar where
  rules : List OptionRule
  takesCommand : Bool
  takeWord : String → Draft → Except UsageError Draft

/-- How the reading of one level ends, if nothing is wrong. -/
inductive LevelEnd where
  | done (draft : Draft)
  | command (draft : Draft) (name : CommandName) (rest : List String)
  | version
  | help

inductive BundleEnd where
  | done (draft : Draft)
  | wants (name : String) (set : String → Draft → Except UsageError Draft) (draft : Draft)
  | version
  | help

namespace Grammar

def readBundle (g : Grammar) : List Char → Draft → Except UsageError BundleEnd
  | [], d => .ok (.done d)
  | c :: cs, d => match OptionRule.findShort g.rules c with
    | none => .error (.unknownOption (String.ofList ['-', c]))
    | some rule => match rule.action with
      | .flag set => match set d with
        | .ok d => readBundle g cs d
        | .error e => .error e
      | .value set => match cs with
        | [] => .ok (.wants rule.long set d)
        | '=' :: value => (set (String.ofList value) d).map .done
        | value => (set (String.ofList value) d).map .done
      | .version => .ok .version
      | .help => .ok .help

def readWords (g : Grammar) : List String → Draft → Except UsageError Draft
  | [], d => .ok d
  | word :: rest, d => match g.takeWord word d with
    | .ok d => readWords g rest d
    | .error e => .error e

/-- Whether an argument has the look of an option. A lone dash has not. -/
def looksLikeOption (arg : String) : Bool := arg.toList.head? = some '-' && arg.length ≠ 1

def splitValue (cs : List Char) : String × Option String :=
  let name := String.ofList (cs.takeWhile (· ≠ '='))
  match cs.dropWhile (· ≠ '=') with
  | _ :: value => (name, some (String.ofList value))
  | [] => (name, none)

/-- Reads what follows the word `help`, which is the way to a command: names of commands only,
without options. Commands have no commands of their own, so a second name leads nowhere. -/
def readHelp : List String → Except UsageError LevelEnd
  | [] => .ok .help
  | name :: rest =>
    if name = "help" ∨ (CommandName.ofText? name).isSome then
      match rest with
      | [] => .ok .help
      | other :: _ => .error (.unknownCommand other)
    else .error (.unknownCommand name)

def read (g : Grammar) : List String → Draft → Except UsageError LevelEnd
  | [], d => .ok (.done d)
  | arg :: rest, d =>
    match arg.toList with
    | ['-', '-'] => (g.readWords rest d).map .done
    | '-' :: '-' :: cs =>
      let (name, value) := splitValue cs
      match OptionRule.findLong g.rules name with
      | none => .error (.unknownOption arg)
      | some rule => match rule.action, value with
        | .flag set, none => match set d with
          | .ok d => read g rest d
          | .error e => .error e
        | .value set, some value => match set value d with
          | .ok d => read g rest d
          | .error e => .error e
        | .value set, none => readValue g name set rest d
        | .version, none => .ok .version
        | .help, none => .ok .help
        | _, some _ => .error (.needlessValue name)
    | '-' :: c :: cs => match g.readBundle (c :: cs) d with
      | .error e => .error e
      | .ok (.done d) => read g rest d
      | .ok (.wants name set d) => readValue g name set rest d
      | .ok .version => .ok .version
      | .ok .help => .ok .help
    | _ =>
      if g.takesCommand && arg = "help" then readHelp rest
      else match if g.takesCommand then CommandName.ofText? arg else none with
        | some name => .ok (.command d name rest)
        | none => match g.takeWord arg d with
          | .ok d => read g rest d
          | .error e => .error e
where
  readValue (g : Grammar) (name : String) (set : String → Draft → Except UsageError Draft) :
      List String → Draft → Except UsageError LevelEnd
    | [], _ => .error (.missingValue name)
    | value :: rest, d =>
      if looksLikeOption value then .error (.missingValue name)
      else match set value d with
        | .ok d => read g rest d
        | .error e => .error e

def takePath (word : String) (d : Draft) : Except UsageError Draft :=
  if d.word.isSome then .error (.unexpectedWord word)
  else match OptionRule.path? word with
    | some path => .ok { d with word := some path }
    | none => .error (.badValue "PATH" word)

def takeShell (word : String) (d : Draft) : Except UsageError Draft :=
  if d.shell.isSome then takePath word d
  else match findNamed Shell.name false Shell.all word with
    | .ok shell => .ok { d with shell := some shell }
    | .error _ => .error (.badValue "SHELL" word)

def refuseWord (word : String) (_ : Draft) : Except UsageError Draft :=
  .error (.unexpectedWord word)

def top : Grammar := ⟨OptionRule.top, true, takePath⟩

/-- The grammar of what follows the name of a command. -/
def ofCommand (name : CommandName) : Grammar where
  rules := name.rules
  takesCommand := false
  takeWord := match name with
    | .file => refuseWord
    | .completions => takeShell
    | _ => takePath

end Grammar

namespace Draft

def options (d : Draft) : CommonOptions where
  debug := d.debug
  verify := d.verify.getD true
  stats := d.stats.getD true
  printSolution := d.printSolution
  reduction := d.reduction.getD .faithful
  selection := d.selection.getD .maxFrequency
  stepLimit := d.stepLimit
  timeout := d.timeout

def required {α : Type} (name : String) : Option α → Except UsageError α
  | some a => .ok a
  | none => .error (.missingOption name)

def command (d : Draft) : CommandName → Except UsageError Command
  | .file => do return .file (← required "path" d.path) d.options
  | .text => do return .text (← required "input" d.input) d.candidates d.options
  | .random => do
    return .random (← required "clauses" d.numClauses) (← required "variables" d.numVars)
      (d.seed.getD 0) d.output d.options
  | .sweep => do
    return .sweep (← required "clauses" d.clauseRange) (← required "variables" d.variableRange)
      (d.repeats.getD 1) (d.seed.getD 0) d.output d.options
  | .completions => do return .completions (← required "shell" d.shell)

end Draft

inductive Request where
  | run (invocation : Invocation)
  | version
  | help

def Request.ofArguments (args : List String) : Except UsageError Request := do
  match ← Grammar.top.read args {} with
  | .version => return .version
  | .help => return .help
  | .done d => return .run ⟨d.word, d.verbosity, d.options, none⟩
  | .command outer name rest =>
    match ← (Grammar.ofCommand name).read rest {} with
    | .version => return .version
    | .help => return .help
    | .command inner _ _ | .done inner =>
      let command ← inner.command name
      let verbosity := if inner.verbosity = 0 then outer.verbosity else inner.verbosity
      return .run ⟨inner.word.or outer.word, verbosity, outer.options, some command⟩

end SatSearch
