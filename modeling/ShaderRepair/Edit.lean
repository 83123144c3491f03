import ShaderRepair.Token

/-!
# Edits

Repairing a source only ever inserts text. This file contains:
- `Insertion`, a text and the offset to put it at, and `Edit`, an insertion with the token it was
  found at;
- `Insertion.sort`, the order by offset that keeps insertions at one offset in their order;
- `Text.splice`, a source with all insertions made.
-/

namespace ShaderRepair

/-- Text to put into a source. Offsets count bytes of the source before any insertion. -/
structure Insertion where
  offset : Int
  text : Text
  deriving DecidableEq, Repr

/-- An insertion and the token it stands next to. -/
structure Edit extends Insertion where
  anchor : Token
  deriving DecidableEq, Repr

namespace Insertion

/-- Puts an insertion in front of the first one that does not come before it. -/
def insertSorted (e : Insertion) : List Insertion → List Insertion
  | [] => [e]
  | f :: more => if e.offset ≤ f.offset then e :: f :: more else f :: insertSorted e more

/-- Ascending offsets; insertions at one offset keep their order. -/
def sort : List Insertion → List Insertion
  | [] => []
  | e :: more => insertSorted e (sort more)

end Insertion

namespace Text

/-- Makes insertions in ascending order, in a text whose first byte has offset `start`. An offset
before that byte means the front of the text, and one behind the text its end. -/
def spliceSorted (start : Nat) (s : Text) : List Insertion → Text
  | [] => s
  | e :: more =>
    let n := min (e.offset - start).toNat s.length
    s.take n ++ e.text ++ spliceSorted (start + n) (s.drop n) more

/-- The source with all insertions made. -/
def splice (source : Text) (insertions : List Insertion) : Text :=
  spliceSorted 0 source (Insertion.sort insertions)

end Text

end ShaderRepair
