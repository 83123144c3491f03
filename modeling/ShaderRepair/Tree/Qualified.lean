import ShaderRepair.Tree.Node

/-!
# Asking for qualifiers

Which qualifiers a declaration carries: by class, by keyword, or any at all; and the places of a
node that carry qualifiers.
-/

namespace ShaderRepair

variable {μ ε : Type}

namespace Qualifiers

def isEmpty (q : Qualifiers μ ε) : Bool :=
  q.layout.isEmpty && q.words.isEmpty

/-- The keyword of a class. -/
def ofClass (q : Qualifiers μ ε) (c : QualifierClass) : Option (Name μ) :=
  (q.words.find? fun w => w.kind = c).map Qualifier.name

/-- Whether a keyword is there. -/
def has (q : Qualifiers μ ε) (word : Text) : Bool :=
  q.words.any fun w => w.name.text = word

end Qualifiers

/-- The qualifiers of a node itself and of its members or parameters, each with the name of what
they belong to. -/
def Node.qualified (n : Node μ ε) : List (Text × Qualifiers μ ε) :=
  let member (m : Member μ ε) := (Text.ascii "Member", m.qualifiers)
  let param (p : Param μ ε) := (Text.ascii "Param", p.qualifiers)
  match n with
  | .struct _ q _ ms _ => (n.kindName, q) :: ms.map member
  | .interface _ q _ ms _ => (n.kindName, q) :: ms.map member
  | .vars _ v => [(n.kindName, v.qualifiers)]
  | .prototype _ s => (n.kindName, s.qualifiers) :: s.params.map param
  | .function _ s _ _ => (n.kindName, s.qualifiers) :: s.params.map param
  | .qualifiers _ q _ => [(n.kindName, q)]
  | _ => []

end ShaderRepair
