import SatSearch.CommandLine.Choice
import SatSearch.Sweep.Grid

/-!
# What the command line asks for

The commands with their options, and the options that every command takes.
-/

namespace SatSearch

structure CommonOptions where
  debug : Bool := false
  verify : Bool := true
  stats : Bool := true
  printSolution : Bool := false
  reduction : Reduction := .faithful
  selection : Selection := .maxFrequency
  stepLimit : Option Nat := none
  timeout : Option Nat := none
deriving DecidableEq, Repr

/-- The settings of a search. The timeout is in milliseconds. -/
def CommonOptions.settings (o : CommonOptions) : Settings where
  reduction := o.reduction
  selection := o.selection
  stepLimit := o.stepLimit
  deadline := o.timeout.map (· * 1000000)

inductive Shell where
  | bash
  | elvish
  | fish
  | powershell
  | zsh
deriving DecidableEq, Repr

def Shell.name : Shell → String
  | bash => "bash"
  | elvish => "elvish"
  | fish => "fish"
  | powershell => "powershell"
  | zsh => "zsh"

def Shell.all : List Shell := [bash, elvish, fish, powershell, zsh]

inductive Command where
  | file (path : String) (options : CommonOptions)
  | text (input : String) (vars : Option (List Nat)) (options : CommonOptions)
  | random (clauses vars seed : Nat) (output : Option String) (options : CommonOptions)
  | sweep (clauses vars : StepRange) (repeats seed : Nat) (output : Option String)
      (options : CommonOptions)
  | completions (shell : Shell)

def Command.options? : Command → Option CommonOptions
  | file _ options | text _ _ options | random _ _ _ _ options | sweep _ _ _ _ _ options =>
    some options
  | completions _ => none

structure Invocation where
  path : Option String
  verbosity : Nat
  options : CommonOptions
  command : Option Command

/-- Whether debugging was asked for, before or after the command. -/
def Invocation.debugging (i : Invocation) : Bool :=
  i.options.debug || ((i.command.bind Command.options?).any (·.debug))

end SatSearch
