import ShaderRepair.Command.Disk
import ShaderRepair.Command.Flags

/-!
# Running the command

The command as a function of its arguments and of what it can see. Inputs are handled one after the
other; one that fails is reported and does not keep the others from being handled. This file
contains:
- `World`, the disk and the standard streams;
- `handle`, one input;
- `run`, the whole command with its exit code.
-/

namespace ShaderRepair

namespace Command

open Text (ascii)

/-- What the command reads and writes. -/
structure World where
  disk : Disk
  input : Text
  output : Text
  errors : Text
  deriving DecidableEq, Repr

namespace World

def print (w : World) (text : Text) : World :=
  { w with output := w.output ++ text }

/-- A line of diagnostics. -/
def complain (w : World) (line : Text) : World :=
  { w with errors := w.errors ++ line ++ ascii "\n" }

end World

/-- The name that stands for standard input. -/
def standardInput : Text :=
  ascii "-"

/-- Reads an input. Standard input can be read once; after that it is empty. -/
def readInput (name : Text) (w : World) : Except Text (Text × World) :=
  if name = standardInput then .ok (w.input, { w with input := [] })
  else
    match w.disk.read name with
    | .ok source => .ok (source, w)
    | .error e =>
      let action := if e = .folder then ascii "read " else ascii "open "
      .error (ascii "read " ++ name ++ ascii ": " ++ action ++ name ++ ascii ": " ++ e.message)

/-- Writes a result to a file, or to standard output if there is no name. -/
def writeOutput (name text : Text) (w : World) : Except Text World :=
  if name.isEmpty then .ok (w.print text)
  else
    match w.disk.write name text with
    | .ok disk => .ok { w with disk := disk }
    | .error e => .error (ascii "write output: open " ++ name ++ ascii ": " ++ e.message)

/-- Where the result for an input goes. -/
def Settings.target (s : Settings) (name : Text) : Text :=
  if s.on .write && s.mode = .fix then name else s.output

/-- Handles one input, and tells whether that went well. -/
def handle (s : Settings) (name : Text) (w : World) : World × Bool :=
  if s.on .write && name = standardInput then
    (w.complain (ascii "-w requires an input file"), false)
  else
    match readInput name w with
    | .error message => (w.complain message, false)
    | .ok (source, w) =>
      match Document.render s.mode source s.options with
      | .error e =>
        (w.complain (name ++ ascii ": " ++ Text.dropFinal Text.lineFeed e.context), false)
      | .ok (text, summary) =>
        match writeOutput (s.target name) text w with
        | .error message => (w.complain message, false)
        | .ok w =>
          if s.on .quiet || summary.isEmpty then (w, true)
          else (w.complain (name ++ ascii ": " ++ summary), true)

/-- Handles inputs in order, and tells whether all of them went well. -/
def handleAll (s : Settings) : List Text → World → World × Bool
  | [], w => (w, true)
  | name :: more, w =>
    let (w, good) := handle s name w
    let (w, rest) := handleAll s more w
    (w, good && rest)

/-- Runs the command with its flags read. Without inputs it reads standard input. -/
def execute (s : Settings) (inputs : List Text) (w : World) : Nat × World :=
  if s.on .version then (0, w.print (ascii "glslasi version 0.1.0-dev\n"))
  else
    let inputs := if inputs.isEmpty then [standardInput] else inputs
    if !s.output.isEmpty && inputs.length > 1 then
      (1, w.complain (ascii "Error: -o requires a single input"))
    else
      let (w, good) := handleAll s inputs w
      (if good then 0 else 1, w)

/-- Runs the command: the exit code, and what has become of the world. -/
def run (arguments : List Text) (w : World) : Nat × World :=
  match Settings.initial.parse arguments with
  | .ok (s, inputs) => execute s inputs w
  | .error e => (e.exitCode, { w with errors := w.errors ++ e.message ++ usage })

end Command

end ShaderRepair
