import ShaderRepair.Text

/-!
# Disks

The files the command can see, as far as it needs to know: regular files with their contents, in
folders. A name is followed step by step, so what stands before its last step has to lead through
folders, even if a later step leads back out of them. This file contains:
- `Path`, where a name leads, without detours;
- `DiskError`, the ways in which reading and writing can fail;
- `Disk`, with reading and writing by name.
-/

namespace ShaderRepair

namespace Command

open Text (ascii)

/-- The steps down from the current folder. A path that starts at the root has an empty first step;
one that leaves the current folder upwards has `..` for each folder it leaves. -/
abbrev Path := List Text

namespace Path

/-- The path one folder up. Above the root is the root. -/
def up (p : Path) : Path :=
  match p.getLast? with
  | none => [ascii ".."]
  | some last =>
    if last.isEmpty then p
    else if last = ascii ".." then p ++ [last]
    else p.dropLast

/-- Where one step of a name leads from a folder. -/
def next (here : Path) (step : Text) : Path :=
  if step = ascii "." then here
  else if step = ascii ".." then here.up
  else here ++ [step]

/-- Where a name starts: at the root if its first byte is a slash. -/
def start (name : Text) : Path :=
  if (ascii "/").isPrefixOf name then [[]] else []

/-- What stands between the slashes of a name. -/
def steps (name : Text) : List Text :=
  (Text.split 47 name).filter fun step => !step.isEmpty

/-- The last step of a name. A name of slashes only stays at the root. -/
def lastStep (name : Text) : Text :=
  (steps name).getLast?.getD (ascii ".")

/-- A name that ends in a slash asks for a folder. -/
def asksFolder (name : Text) : Bool :=
  name.getLast? = some 47

/-- Where a name leads if there are folders all along the way. -/
def ofText (name : Text) : Path :=
  (steps name).foldl next (start name)

def toText (p : Path) : Text :=
  Text.join (ascii "/") p

/-- Whether a path stays below the current folder. -/
def isLocal (p : Path) : Bool :=
  p.all fun step => !step.isEmpty && step ≠ ascii ".."

end Path

inductive DiskError where
  | missing
  | folder
  | notFolder
  | longName
  deriving DecidableEq, Repr

def DiskError.message : DiskError → Text
  | .missing => ascii "no such file or directory"
  | .folder => ascii "is a directory"
  | .notFolder => ascii "not a directory"
  | .longName => ascii "file name too long"

/-- Regular files, and folders that are there although they hold none. -/
structure Disk where
  files : List (Path × Text)
  folders : List Path
  deriving DecidableEq, Repr

namespace Disk

def empty : Disk :=
  ⟨[], []⟩

/-- The most bytes that one step of a name has. -/
def stepLimit : Nat := 255

/-- The most bytes that a name has. -/
def nameLimit : Nat := 4095

/-- Whether a path leads to a folder: the root, the current folder or one above it, one that is
known, or one with a file in it. -/
def isFolder (d : Disk) (p : Path) : Bool :=
  (p.all fun step => step.isEmpty || step = ascii "..") || d.folders.contains p ||
    d.files.any fun f => p.isPrefixOf f.1 && p ≠ f.1

def content (d : Disk) (p : Path) : Option Text :=
  d.files.lookup p

/-- Takes a step of a name into a folder. -/
def enter (d : Disk) (here : Path) (step : Text) : Except DiskError Path :=
  let there := here.next step
  if d.isFolder there then .ok there
  else if step.length > stepLimit then .error .longName
  else if (d.content there).isSome then .error .notFolder
  else .error .missing

/-- Takes all steps of a name but the last. -/
def approach (d : Disk) (name : Text) : Except DiskError Path :=
  if name.isEmpty then .error .missing
  else if name.length > nameLimit then .error .longName
  else (Path.steps name).dropLast.foldlM d.enter (Path.start name)

/-- Reads a file. A file whose name asks for a folder cannot be read. -/
def read (d : Disk) (name : Text) : Except DiskError Text := do
  let here ← d.approach name
  match d.content (here.next (Path.lastStep name)) with
  | some text => if Path.asksFolder name then .error .notFolder else .ok text
  | none =>
    let _ ← d.enter here (Path.lastStep name)
    .error .folder

/-- Puts a file in its place. -/
def put (p : Path) (text : Text) : List (Path × Text) → List (Path × Text)
  | [] => [(p, text)]
  | f :: more => if f.1 = p then (p, text) :: more else f :: put p text more

/-- Writes a file into a folder that is there, over an older one of that name. A name that asks for
a folder cannot be written, whether the folder is there or not. -/
def write (d : Disk) (name text : Text) : Except DiskError Disk := do
  let here ← d.approach name
  let there := here.next (Path.lastStep name)
  if Path.asksFolder name || d.isFolder there then .error .folder
  else if (Path.lastStep name).length > stepLimit then .error .longName
  else .ok { d with files := put there text d.files }

end Disk

end Command

end ShaderRepair
