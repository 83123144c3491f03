import ShaderRepair.Proofs.Laid
import ShaderRepair.Proofs.Traversal

/-!
# Families of extents

An extent with the extents directly inside it is a family. Where every family of a tree is in order,
the whole tree stays inside its extent. This file contains:
- `Node.family`, `Member.family` and `Case.family`, beside `Passage.family` for expressions;
- `Laid.bounds`, which says that the extents of passages stay where the passages are laid out;
- `Module.family_mem` and its companions, which say that `Module.families` leaves out no node,
  member, case or expression.
-/

namespace ShaderRepair

/-! ## Families -/

section Families

variable {μ : Type}

/-- The extent of a node with those of what it holds: members, cases, nodes and expressions. -/
def Node.family (n : Node μ (Expr (Extent μ))) : Extent μ × List (Extent μ) :=
  (n.extent, Passage.extents n.parts)

/-- The extent of a member with those of its expressions. -/
def Member.family (m : Member μ (Expr (Extent μ))) : Extent μ × List (Extent μ) :=
  (m.extent, Passage.extents
    (m.qualifiers.passages ++ (m.type.passages ++ m.declarators.flatMap Declarator.passages)))

/-- The extent of a case with those of its label and of the items after it. -/
def Case.family (c : Case μ (Expr (Extent μ))) : Extent μ × List (Extent μ) :=
  (c.extent, Passage.extents c.parts)

def Node.members {ε : Type} : Node μ ε → List (Member μ ε)
  | .struct _ _ _ ms _ => ms
  | .interface _ _ _ ms _ => ms
  | _ => []

def Node.cases {ε : Type} : Node μ ε → List (Case μ ε)
  | .switch _ _ cs => cs
  | _ => []

end Families

/-! ## Bounds -/

namespace Grammar

open Passage

/-- Everything in an expression stays inside its extent, by induction from the operands. -/
theorem bounds_of_postorder (e : Tree) (h : ∀ g ∈ e.postorder, Nests (family g))
    (hle : e.note.first ≤ e.note.last) :
    ∀ g ∈ e.postorder, e.note.first ≤ g.note.first ∧ g.note.first ≤ g.note.last ∧
      g.note.last ≤ e.note.last := by
  induction e using Expr.operandInduction with
  | step e ih =>
    intro g hg
    have hself : Nests (family e) := h e (Expr.mem_postorder_self e)
    rw [Expr.postorder_eq, List.mem_append, List.mem_flatMap, List.mem_singleton] at hg
    obtain ⟨c, hc, hg⟩ | rfl := hg
    · obtain ⟨hfirst, hclt, hlast⟩ := hself.bounds (List.mem_map_of_mem hc)
      have hsub := Expr.postorder_sublist (Expr.mem_postorder_of_mem_children hc)
      have hinner := ih c hc (fun g hg => h g (hsub.subset hg)) hclt g hg
      simp only [family] at hfirst hlast
      omega
    · exact ⟨Nat.le_refl _, hle, Nat.le_refl _⟩

mutual

/-- Everything in a passage stays inside its extent. -/
theorem bounds_of_families (p : Passage Nat Tree) (h : ∀ f ∈ p.families, Nests f)
    {x : Extent Nat} (hx : p.extent? = some x) (hle : x.first ≤ x.last) :
    ∀ f ∈ p.families, x.first ≤ f.1.first ∧ f.1.first ≤ f.1.last ∧ f.1.last ≤ x.last := by
  match p with
  | .atom a => exact fun f hf => nomatch hf
  | .expr e =>
    cases hx
    intro f hf
    obtain ⟨g, hg, rfl⟩ := List.mem_map.1 hf
    exact bounds_of_postorder e (fun g hg => h _ (List.mem_map_of_mem hg)) hle g hg
  | .span y parts =>
    obtain rfl : y = x := Option.some.inj hx
    intro f hf
    obtain rfl | hf := List.mem_cons.1 hf
    · exact ⟨Nat.le_refl _, hle, Nat.le_refl _⟩
    · have hrow : Nests (y, extents parts) := h _ List.mem_cons_self
      have hin := bounds_of_row parts (fun f hf => h f (List.mem_cons_of_mem _ hf)) hrow f hf
      simp only at hin
      omega

theorem bounds_of_row (ps : Content) (h : ∀ f ∈ familiesAll ps, Nests f) {start stop : Nat}
    (hrow : Row start (extents ps) stop) :
    ∀ f ∈ familiesAll ps, start ≤ f.1.first ∧ f.1.first ≤ f.1.last ∧ f.1.last < stop := by
  match ps with
  | [] => exact fun f hf => nomatch hf
  | p :: more =>
    intro f hf
    have hmore : ∀ {mid}, Row mid (extents more) stop → f ∈ familiesAll more →
        mid ≤ f.1.first ∧ f.1.first ≤ f.1.last ∧ f.1.last < stop :=
      fun hr hf => bounds_of_row more (fun f hf => h f (List.mem_append_right _ hf)) hr f hf
    rw [familiesAll_cons, List.mem_append] at hf
    -- A passage without an extent has no families and no place in the row.
    cases hp : p.extent? with
    | none =>
      have hnone : p.families = [] := by
        cases p with
        | atom a => rfl
        | expr e => cases hp
        | span x parts => cases hp
      have hmem : f ∈ familiesAll more := by
        rw [hnone] at hf
        exact hf.resolve_left fun hf => nomatch hf
      refine hmore ?_ hmem
      rw [extents, List.filterMap_cons, hp] at hrow
      exact hrow
    | some x =>
      rw [extents, List.filterMap_cons, hp] at hrow
      obtain ⟨hfirst, hle, hrest⟩ := hrow
      have hstop := hrest.le
      obtain hf | hf := hf
      · have hin := bounds_of_families p (fun f hf => h f (List.mem_append_left _ hf)) hp hle f hf
        omega
      · have hin := hmore hrest hf
        omega

end

/-- The extents of passages stay where these are laid out. -/
theorem Laid.bounds {start stop : Nat} {c : Content} (h : Laid start c stop) :
    ∀ f ∈ familiesAll c, start ≤ f.1.first ∧ f.1.first ≤ f.1.last ∧ f.1.last < stop :=
  bounds_of_row c h.nested h.row

end Grammar

/-! ## Whose families there are -/

section Members

open Passage

variable {μ : Type} {n k : Node μ (Expr (Extent μ))}

theorem Passage.families_subset_of_mem {p : Passage μ (Expr (Extent μ))}
    {ps : List (Passage μ (Expr (Extent μ)))} (hp : p ∈ ps) :
    p.families ⊆ familiesAll ps := by
  intro f hf
  rw [familiesAll_eq]
  exact List.mem_flatMap.2 ⟨p, hp, hf⟩

mutual

/-- The families of the expressions that are met. -/
theorem Passage.family_mem_families {e g : Expr (Extent μ)} (hg : g ∈ e.postorder)
    (p : Passage μ (Expr (Extent μ))) (he : e ∈ p.exprs) : family g ∈ p.families := by
  match p with
  | .atom a => exact nomatch he
  | .expr e' =>
    obtain rfl := List.mem_singleton.1 he
    exact List.mem_map_of_mem hg
  | .span x parts => exact List.mem_cons_of_mem _ (Passage.family_mem_familiesAll hg parts he)

theorem Passage.family_mem_familiesAll {e g : Expr (Extent μ)} (hg : g ∈ e.postorder)
    (ps : List (Passage μ (Expr (Extent μ)))) (he : e ∈ exprsAll ps) :
    family g ∈ familiesAll ps := by
  match ps with
  | [] => exact nomatch he
  | p :: more =>
    rw [exprsAll_cons, List.mem_append] at he
    rw [familiesAll_cons, List.mem_append]
    exact he.imp (Passage.family_mem_families hg p) (Passage.family_mem_familiesAll hg more)

end

/-- The families of what stands inside a node are among its families. -/
theorem Node.families_of_part {p : Passage μ (Expr (Extent μ))} (hp : p ∈ n.parts) :
    p.families ⊆ n.passage.families :=
  List.Subset.trans (families_subset_of_mem hp) (List.subset_cons_self _ _)

/-- So are those of a node inside one of its parts. -/
theorem Node.families_of_inner {m : Node μ (Expr (Extent μ))}
    (h : k.passage.families ⊆ m.passage.families) (hm : m.passage ∈ n.parts) :
    k.passage.families ⊆ n.passage.families :=
  List.Subset.trans h (Node.families_of_part hm)

mutual

/-- The families of a node inside another one are among those of the outer one. -/
theorem Node.families_subset (n : Node μ (Expr (Extent μ))) {k : Node μ (Expr (Extent μ))}
    (hk : k ∈ n.within) : k.passage.families ⊆ n.passage.families := by
  -- A node that holds no other one is all there is within it.
  have hself : k = n → k.passage.families ⊆ n.passage.families := by
    rintro rfl
    exact List.Subset.refl _
  match n with
  | .function x s y body =>
    have hbody : (span y (Node.passagesAll body)).families ⊆
        (Node.function x s y body).passage.families :=
      Node.families_of_part (by simp [Node.parts])
    simp only [Node.within, Node.inspect, if_true, List.mem_cons] at hk
    obtain hk | rfl | hk := hk
    · exact hself hk
    · exact hbody
    · exact List.Subset.trans (Node.families_subset_all body hk)
        (List.Subset.trans (List.subset_cons_self _ _) hbody)
  | .block x body =>
    simp only [Node.within, Node.inspect, if_true, List.mem_cons] at hk
    obtain hk | hk := hk
    · exact hself hk
    · exact List.Subset.trans (Node.families_subset_all body hk) (List.subset_cons_self _ _)
  | .ifThen x c yes =>
    simp only [Node.within, Node.inspect, if_true, List.mem_cons] at hk
    obtain hk | hk := hk
    · exact hself hk
    · exact Node.families_of_inner (Node.families_subset yes hk)
        (by simp [Node.parts, Node.passage])
  | .ifElse x c yes no =>
    simp only [Node.within, Node.inspect, if_true, List.mem_cons, List.mem_append] at hk
    obtain hk | hk | hk := hk
    · exact hself hk
    · exact Node.families_of_inner (Node.families_subset yes hk)
        (by simp [Node.parts, Node.passage])
    · exact Node.families_of_inner (Node.families_subset no hk)
        (by simp [Node.parts, Node.passage])
  | .switch x e cases =>
    simp only [Node.within, Node.inspect, if_true, List.mem_cons] at hk
    obtain hk | hk := hk
    · exact hself hk
    · intro f hf
      refine List.mem_cons_of_mem _ (List.mem_append_right (expr e).families ?_)
      exact Case.families_subset_all cases hk hf
  | .forLoop x init c u body =>
    simp only [Node.within, Node.inspect, if_true, List.mem_cons, List.mem_append] at hk
    obtain hk | hk | hk := hk
    · exact hself hk
    · cases init with
      | none => cases hk
      | vars y v =>
        obtain rfl := List.mem_singleton.1 hk
        exact Node.families_of_part (by simp [Node.parts, ForInit.passages, Node.passage,
          Node.extent])
      | expression y e =>
        obtain rfl := List.mem_singleton.1 hk
        exact Node.families_of_part (by simp [Node.parts, ForInit.passages, Node.passage,
          Node.extent])
    · exact Node.families_of_inner (Node.families_subset body hk)
        (by simp [Node.parts, Node.passage])
  | .whileLoop x c body =>
    simp only [Node.within, Node.inspect, if_true, List.mem_cons] at hk
    obtain hk | hk := hk
    · exact hself hk
    · exact Node.families_of_inner (Node.families_subset body hk)
        (by simp [Node.parts, Node.passage])
  | .doWhile x body c =>
    simp only [Node.within, Node.inspect, if_true, List.mem_cons] at hk
    obtain hk | hk := hk
    · exact hself hk
    · exact Node.families_of_inner (Node.families_subset body hk)
        (by simp [Node.parts, Node.passage])
  | .struct x q name ms ds => exact hself (List.mem_singleton.1 hk)
  | .interface x q name ms ds => exact hself (List.mem_singleton.1 hk)
  | .vars x v => exact hself (List.mem_singleton.1 hk)
  | .prototype x s => exact hself (List.mem_singleton.1 hk)
  | .precision x word t => exact hself (List.mem_singleton.1 hk)
  | .qualifiers x q names => exact hself (List.mem_singleton.1 hk)
  | .expression x e => exact hself (List.mem_singleton.1 hk)
  | .empty x => exact hself (List.mem_singleton.1 hk)
  | .break x => exact hself (List.mem_singleton.1 hk)
  | .continue x => exact hself (List.mem_singleton.1 hk)
  | .return x value => exact hself (List.mem_singleton.1 hk)
  | .discard x => exact hself (List.mem_singleton.1 hk)

theorem Node.families_subset_all (ns : List (Node μ (Expr (Extent μ))))
    {k : Node μ (Expr (Extent μ))} (hk : k ∈ Node.inspectAll (fun _ => true) ns) :
    k.passage.families ⊆ familiesAll (Node.passagesAll ns) := by
  match ns with
  | [] => exact nomatch hk
  | n :: more =>
    rw [Node.inspectAll, List.mem_append] at hk
    intro f hf
    rw [Node.passagesAll, familiesAll_cons, List.mem_append]
    exact hk.imp (fun hk => Node.families_subset n hk hf)
      fun hk => Node.families_subset_all more hk hf

theorem Case.families_subset_all (cs : List (Case μ (Expr (Extent μ))))
    {k : Node μ (Expr (Extent μ))} (hk : k ∈ Node.inspectCases (fun _ => true) cs) :
    k.passage.families ⊆ familiesAll (Case.passagesAll cs) := by
  match cs with
  | [] => exact nomatch hk
  | .mk x label body :: more =>
    rw [Node.inspectCases, Node.inspectCase, List.mem_append] at hk
    intro f hf
    rw [Case.passagesAll, familiesAll_cons, List.mem_append]
    refine hk.imp (fun hk => ?_) fun hk => Case.families_subset_all more hk hf
    have hmem := Node.families_subset_all body hk hf
    simp [Case.parts, hmem]

end

namespace Module

variable {m : Module μ (Expr (Extent μ))}

theorem families_of_item (hn : n ∈ m.items) : n.passage.families ⊆ m.families :=
  families_subset_of_mem (List.mem_map_of_mem hn)

/-- The families of a node of a module. -/
theorem families_of_node (hk : k ∈ m.nodes) : k.passage.families ⊆ m.families := by
  obtain ⟨n, hn, hk⟩ := List.mem_flatMap.1 hk
  exact List.Subset.trans (n.families_subset hk) (families_of_item hn)

theorem family_mem (hk : k ∈ m.nodes) : k.family ∈ m.families :=
  families_of_node hk List.mem_cons_self

theorem member_family_mem (hk : k ∈ m.nodes) {l : Member μ (Expr (Extent μ))}
    (hl : l ∈ k.members) : l.family ∈ m.families := by
  have hpart : l.passage ∈ k.parts := by
    cases k with
    | struct x q name ms ds =>
      have hmem : l.passage ∈ ms.map Member.passage := List.mem_map_of_mem hl
      simp [Node.parts, -List.mem_map, hmem]
    | interface x q name ms ds =>
      have hmem : l.passage ∈ ms.map Member.passage := List.mem_map_of_mem hl
      simp [Node.parts, -List.mem_map, hmem]
    | _ => cases hl
  exact families_of_node hk (Node.families_of_part hpart List.mem_cons_self)

theorem case_family_mem (hk : k ∈ m.nodes) {c : Case μ (Expr (Extent μ))} (hc : c ∈ k.cases) :
    c.family ∈ m.families := by
  have hpart : c.passage ∈ k.parts := by
    cases k with
    | switch x e cs =>
      have hmem : c.passage ∈ cs.map Case.passage := List.mem_map_of_mem hc
      rw [Node.parts, Case.passagesAll_eq]
      exact List.mem_cons_of_mem _ hmem
    | _ => cases hc
  exact families_of_node hk (Node.families_of_part hpart List.mem_cons_self)

/-- The families of the expressions in finished items. -/
theorem expr_family_mem {e : Expr (Extent μ)} (hn : n ∈ m.items)
    (he : e ∈ n.slots.flatMap Expr.postorder) : Passage.family e ∈ m.families := by
  obtain ⟨r, hr, he⟩ := List.mem_flatMap.1 he
  rw [← Node.exprsAll_parts] at hr
  exact families_of_item hn (List.mem_cons_of_mem _ (family_mem_familiesAll he n.parts hr))

end Module

end Members

end ShaderRepair
