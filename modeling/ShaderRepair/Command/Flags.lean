import ShaderRepair.Correction
import ShaderRepair.Document

/-!
# Flags

The flags of the command. A flag is written with one dash or two; a switch may be given a value
after an equals sign, and the output flag takes its value from there or from the next argument.
Flags end at the first argument that is none, or at two dashes alone. This file contains:
- `Switch`, `Flag` and the table of flags, which also makes the usage text;
- `Settings`, what the flags set;
- `Settings.parse`, and the errors it can end with.
-/

namespace ShaderRepair

namespace Command

open Text (ascii)

/-! ## The flags -/

/-- Flags that are on or off. -/
inductive Switch where
  | write
  | list
  | quiet
  | tokens
  | tree
  | types
  | version
  | semicolons
  | inline
  | colons
  | parens
  | commas
  | conversions
  deriving DecidableEq, Repr

/-- Insertions are on unless they are switched off. -/
def Switch.default : Switch → Bool
  | .semicolons | .inline | .colons | .parens | .commas | .conversions => true
  | _ => false

inductive Flag where
  | switch (s : Switch)
  | output
  deriving DecidableEq, Repr

/-- A flag with its name and its line in the usage text. -/
structure Flag.Entry where
  name : Text
  flag : Flag
  help : Text

/-- All flags, by name. -/
def Flag.table : List Flag.Entry :=
  [⟨ascii "ast", .switch .tree, ascii "print the syntax tree outline and exit"⟩,
    ⟨ascii "colons", .switch .colons,
      ascii "insert colons after case labels and in conditionals"⟩,
    ⟨ascii "commas", .switch .commas, ascii "insert commas between arguments"⟩,
    ⟨ascii "conversions", .switch .conversions,
      ascii "wrap initializers in explicit type constructors"⟩,
    ⟨ascii "inline", .switch .inline, ascii "insert semicolons between statements on one line"⟩,
    ⟨ascii "l", .switch .list, ascii "list insertions instead of printing the repaired shader"⟩,
    ⟨ascii "o", .output, ascii "output file (default: stdout)"⟩,
    ⟨ascii "parens", .switch .parens, ascii "insert parentheses around conditions"⟩,
    ⟨ascii "q", .switch .quiet, ascii "do not print the summary"⟩,
    ⟨ascii "semicolons", .switch .semicolons, ascii "insert semicolons at line ends"⟩,
    ⟨ascii "tokens", .switch .tokens, ascii "print the token stream and exit"⟩,
    ⟨ascii "types", .switch .types,
      ascii "print every expression with its inferred type and exit"⟩,
    ⟨ascii "version", .switch .version, ascii "print version"⟩,
    ⟨ascii "w", .switch .write, ascii "write result to the input file instead of stdout"⟩]

def Flag.named (name : Text) : Option Flag :=
  (Flag.table.find? fun e => e.name = name).map Flag.Entry.flag

/-! ## The usage text -/

/-- The head of a flag's entry; a flag with a value names its type. -/
def Flag.Entry.head (e : Flag.Entry) : Text :=
  match e.flag with
  | .switch _ => ascii "  -" ++ e.name
  | .output => ascii "  -" ++ e.name ++ ascii " string"

/-- A short head has its help beside it, a longer one below it. -/
def Flag.Entry.usage (e : Flag.Entry) : Text :=
  let gap := if e.head.length ≤ 4 then ascii "\t" else ascii "\n    \t"
  let preset :=
    match e.flag with
    | .switch s => if s.default then ascii " (default true)" else []
    | .output => []
  e.head ++ gap ++ e.help ++ preset ++ ascii "\n"

def usage : Text :=
  ascii "Usage: glslasi [options] [input.glsl...]\n\n" ++
    ascii "Reads standard input when no file is given.\n\n" ++
    ascii "Options:\n" ++
    Flag.table.flatMap Flag.Entry.usage ++
    ascii "\nExamples:\n" ++
    ascii "  glslasi shader.frag               Print the repaired shader\n" ++
    ascii "  glslasi -w shader.frag            Repair in place\n" ++
    ascii "  glslasi -l shader.frag            List insertions\n"

/-! ## Settings -/

/-- What the flags set; an empty output means standard output. -/
structure Settings where
  on : Switch → Bool
  output : Text

namespace Settings

def initial : Settings :=
  ⟨Switch.default, []⟩

def set (s : Settings) (switch : Switch) (value : Bool) : Settings :=
  { s with on := fun other => if other = switch then value else s.on other }

/-- Of several modes the first one counts. -/
def mode (s : Settings) : Mode :=
  if s.on .tokens then .tokens
  else if s.on .tree then .tree
  else if s.on .types then .types
  else if s.on .list then .list
  else .fix

def options (s : Settings) : Options :=
  ⟨s.on .semicolons, s.on .inline, s.on .colons, s.on .parens, s.on .commas, s.on .conversions⟩

end Settings

/-! ## Reading arguments -/

inductive FlagError where
  /-- The usage text was asked for. -/
  | help
  | badSyntax (argument : Text)
  | undefined (name : Text)
  | badValue (value name : Text)
  | missingValue (name : Text)
  deriving DecidableEq, Repr

/-- What is said before the usage text. -/
def FlagError.message : FlagError → Text
  | .help => []
  | .badSyntax argument => ascii "bad flag syntax: " ++ argument ++ ascii "\n"
  | .undefined name => ascii "flag provided but not defined: -" ++ name ++ ascii "\n"
  | .badValue value name =>
    ascii "invalid boolean value " ++ Text.quoted value ++ ascii " for -" ++ name ++
      ascii ": parse error\n"
  | .missingValue name => ascii "flag needs an argument: -" ++ name ++ ascii "\n"

def FlagError.exitCode : FlagError → Nat
  | .help => 0
  | _ => 2

/-- The spellings of a truth value. -/
def readBool (value : Text) : Option Bool :=
  if ["1", "t", "T", "TRUE", "true", "True"].any fun w => value = ascii w then some true
  else if ["0", "f", "F", "FALSE", "false", "False"].any fun w => value = ascii w then some false
  else none

/-- What an argument is by its form. -/
inductive Argument where
  | operand
  | terminator
  | malformed
  | flag (name : Text) (value : Option Text)
  deriving DecidableEq, Repr

/-- A flag without its dashes, cut at the first equals sign. -/
def Argument.ofName (name : Text) : Argument :=
  if name.isEmpty || (ascii "-").isPrefixOf name || (ascii "=").isPrefixOf name then .malformed
  else
    let word := name.takeWhile (· ≠ 61)
    match name.drop word.length with
    | [] => .flag word none
    | _ :: value => .flag word (some value)

def Argument.ofText (argument : Text) : Argument :=
  if argument = ascii "--" then .terminator
  else if (ascii "--").isPrefixOf argument then .ofName (argument.drop 2)
  else if (ascii "-").isPrefixOf argument && argument.length > 1 then .ofName (argument.drop 1)
  else .operand

namespace Settings

/-- Reads flags, and leaves the arguments behind them. -/
def parse (s : Settings) : List Text → Except FlagError (Settings × List Text)
  | [] => .ok (s, [])
  | argument :: rest =>
    match Argument.ofText argument with
    | .operand => .ok (s, argument :: rest)
    | .terminator => .ok (s, rest)
    | .malformed => .error (.badSyntax argument)
    | .flag name value =>
      match Flag.named name, value with
      | none, _ =>
        if name = ascii "help" || name = ascii "h" then .error .help else .error (.undefined name)
      | some (.switch switch), none => parse (s.set switch true) rest
      | some (.switch switch), some v =>
        match readBool v with
        | some b => parse (s.set switch b) rest
        | none => .error (.badValue v name)
      | some .output, some v => parse { s with output := v } rest
      | some .output, none =>
        match rest with
        | [] => .error (.missingValue name)
        | v :: more => parse { s with output := v } more

end Settings

end Command

end ShaderRepair
