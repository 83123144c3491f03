import ShaderRepair.Command.Run

/-!
# The program

Fetches the files that the arguments name, runs the command on them, and stores what has changed.
-/

namespace ShaderRepair

namespace Program

open Command

def text (s : String) : Text :=
  s.toUTF8.toList

def bytes (t : Text) : ByteArray :=
  ⟨t.toArray⟩

/-- A file name as the system takes it. -/
def fileName (name : Text) : String :=
  (String.fromUTF8? (bytes name)).getD ""

/-- A name cut after each of its steps. -/
def stages (name : Text) : List Text :=
  let steps := Path.steps name
  let root := if (Path.start name).isEmpty then [] else Text.ascii "/"
  (List.range steps.length).map fun n => root ++ Text.join (Text.ascii "/") (steps.take (n + 1))

/-- Adds what a name leads to, if it leads anywhere. -/
def fetchStage (d : Disk) (name : Text) : IO Disk := do
  let p := Path.ofText name
  try
    let found ← IO.FS.readBinFile (fileName name)
    return { d with files := Disk.put p found.toList d.files }
  catch
    | .inappropriateType .. => return { d with folders := p :: d.folders }
    | _ => return d

/-- Adds what lies along the way of a name. -/
def fetch (d : Disk) (name : Text) : IO Disk :=
  (stages name).foldlM fetchStage d

/-- Stores a file under its name if it is new or has changed. -/
def store (before after : Disk) (name : Text) : IO Unit := do
  let p := Path.ofText name
  match after.content p with
  | some content =>
    unless before.content p = some content do
      IO.FS.writeBinFile (fileName name) (bytes content)
  | none => return

end Program

end ShaderRepair

open ShaderRepair ShaderRepair.Program ShaderRepair.Command in
/-- The command line. -/
def main (arguments : List String) : IO UInt32 := do
  let arguments := arguments.map text
  let (settings, inputs) := ((Settings.initial.parse arguments).toOption).getD (.initial, [])
  let targets := if settings.output.isEmpty then [] else [settings.output]
  let names := inputs.filter (· ≠ standardInput) ++ targets
  let disk ← names.foldlM fetch Disk.empty
  let reads := inputs.isEmpty || inputs.contains standardInput
  let input ←
    if reads && !settings.on .version then (← IO.getStdin).readBinToEnd else pure ByteArray.empty
  let (code, world) := run arguments ⟨disk, input.toList, [], []⟩
  names.forM (store disk world.disk)
  (← IO.getStdout).write (bytes world.output)
  (← IO.getStderr).write (bytes world.errors)
  return code.toUInt32
