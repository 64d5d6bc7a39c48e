import Chunkwise.Language

/-!
# Arguments of the command

The arguments are read from left to right. Options have a long name, some have a letter too, and letters may stand
together; the value of an option stands behind it or is attached to it. Behind two dashes there are paths only. An
option is given once, a required grammar any number of times.

* `scan_path`: a plain argument is a path.
-/

namespace Chunkwise
namespace Command

/-- What a run is asked to do. -/
structure Invocation where
  /-- Files and directories to cut. -/
  paths : List String := []
  /-- The configuration file. -/
  config : Option String := none
  /-- Whether to describe the engine and do no more. -/
  status : Bool := false
  /-- Whether to give figures in place of chunks. -/
  stats : Bool := false
  parallel : Bool := false
  verbose : Bool := false
  quiet : Bool := false
  /-- Languages whose grammars must be loaded. -/
  required : List Language := []
deriving DecidableEq, Repr

/-- What is asked for. -/
inductive Order where
  | run (invocation : Invocation)
  | help
  | version
deriving DecidableEq, Repr

/-- An option without a value. -/
inductive Switch where
  | status
  | stats
  | parallel
  | verbose
  | quiet
deriving DecidableEq, Repr

/-- An option with a value. -/
inductive Setter where
  | config
  | required
deriving DecidableEq, Repr

/-- What an option is. -/
inductive Choice where
  | switch (s : Switch)
  | setter (s : Setter)
  | help
  | version
deriving DecidableEq, Repr

/-- The options by their long names. -/
def longNames : List (String × Choice) :=
  [("config", .setter .config), ("status", .switch .status), ("stats", .switch .stats),
   ("parallel", .switch .parallel), ("require-grammar", .setter .required), ("verbose", .switch .verbose),
   ("quiet", .switch .quiet), ("help", .help), ("version", .version)]

/-- The options by their letters. -/
def letters : List (Char × Choice) :=
  [('c', .setter .config), ('v', .switch .verbose), ('q', .switch .quiet), ('h', .help), ('V', .version)]

namespace Invocation

/-- Sets a switch that is not set. -/
def turnOn? (v : Invocation) : Switch → Option Invocation
  | .status => if v.status then none else some { v with status := true }
  | .stats => if v.stats then none else some { v with stats := true }
  | .parallel => if v.parallel then none else some { v with parallel := true }
  | .verbose => if v.verbose then none else some { v with verbose := true }
  | .quiet => if v.quiet then none else some { v with quiet := true }

/-- Gives an option its value. -/
def give? (v : Invocation) (text : String) : Setter → Option Invocation
  | .config => if text.isEmpty || v.config.isSome then none else some { v with config := some text }
  | .required => (Language.parse? text).map fun language => { v with required := v.required ++ [language] }

/-- Adds a path. -/
def addPath? (v : Invocation) (path : String) : Option Invocation :=
  if path.isEmpty then none else some { v with paths := v.paths ++ [path] }

end Invocation

/-- What follows from an argument. -/
inductive Step where
  | misuse
  /-- All is known. -/
  | done (order : Order)
  | next (v : Invocation)
  /-- The value of an option comes next. -/
  | awaits (v : Invocation) (s : Setter)

/-- The step to an invocation that there may be. -/
def Step.ofOption : Option Invocation → Step
  | none => misuse
  | some v => next v

/-- What follows from a long option with its attached value. -/
def longStep (v : Invocation) (name : String) (attached : Option String) : Step :=
  match longNames.lookup name, attached with
  | some (.switch s), none => .ofOption (v.turnOn? s)
  | some (.setter s), none => .awaits v s
  | some (.setter s), some text => .ofOption (v.give? text s)
  | some .help, none => .done .help
  | some .version, none => .done .version
  | _, _ => .misuse

/-- What follows from letters. What stands behind the letter of an option with a value is that value, with an equals
sign before it or not. -/
def letterStep : Invocation → List Char → Step
  | v, [] => .next v
  | v, c :: rest =>
    match letters.lookup c with
    | none => .misuse
    | some (.switch s) =>
      match v.turnOn? s with
      | none => .misuse
      | some v => letterStep v rest
    | some (.setter s) =>
      match rest with
      | [] => .awaits v s
      | '=' :: text => .ofOption (v.give? (String.ofList text) s)
      | text => .ofOption (v.give? (String.ofList text) s)
    | some .help => .done .help
    | some .version => .done .version

/-- A long option without its dashes: its name and its attached value. -/
def splitLong (text : List Char) : String × Option String :=
  let value := match text.dropWhile (· != '=') with
    | [] => none
    | _ :: value => some (String.ofList value)
  (String.ofList (text.takeWhile (· != '=')), value)

/-- Whether an argument is an option, or the two dashes. -/
def isOption (arg : String) : Bool :=
  match arg.toList with
  | '-' :: _ :: _ => true
  | _ => false

/-- What follows from one argument. -/
def step (v : Invocation) (arg : String) : Step :=
  match arg.toList with
  | '-' :: '-' :: text => longStep v (splitLong text).1 (splitLong text).2
  | '-' :: c :: rest => letterStep v (c :: rest)
  | _ => .ofOption (v.addPath? arg)

/-- The invocation with only paths to come. -/
def allPaths? (v : Invocation) : List String → Option Order
  | [] => some (.run v)
  | path :: rest => (v.addPath? path).bind (allPaths? · rest)

/-- What the arguments ask for, behind some that were read. `none` if they cannot be understood. -/
def scan? : Invocation → List String → Option Order
  | v, [] => some (.run v)
  | v, arg :: rest =>
    if arg = "--" then allPaths? v rest
    else
      match step v arg, rest with
      | .misuse, _ => none
      | .done order, _ => some order
      | .next v, rest => scan? v rest
      | .awaits _ _, [] => none
      | .awaits v s, value :: rest => if isOption value then none else (v.give? value s).bind (scan? · rest)

/-- What the arguments ask for. -/
def Order.ofArguments? (args : List String) : Option Order := scan? {} args

/-- A plain argument is a path. -/
theorem scan_path {v : Invocation} {path : String} {rest : List String} (hp : path ≠ "")
    (hd : path.toList.head? ≠ some '-') :
    scan? v (path :: rest) = scan? { v with paths := v.paths ++ [path] } rest := by
  have hdash : path ≠ "--" := by
    rintro rfl
    exact hd (by decide)
  have hstep : step v path = .next { v with paths := v.paths ++ [path] } := by
    have hadd : v.addPath? path = some { v with paths := v.paths ++ [path] } := by
      simp [Invocation.addPath?, hp]
    unfold step
    split
    · rename_i h
      simp [h] at hd
    · rename_i h
      simp [h] at hd
    · rw [hadd]; rfl
  conv => lhs; unfold scan?
  simp only [if_neg hdash, hstep]

end Command
end Chunkwise
