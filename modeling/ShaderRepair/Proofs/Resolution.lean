import ShaderRepair.Proofs.Traversal
import ShaderRepair.Typing.Table

/-!
# What a table of types holds

Typing an expression whose numbers are new to a table adds the types of everything in it, operands
first, and answers with its own. This file contains:
- `TypeTable.Fresh`, expressions with different numbers that have no entry yet;
- `TypeTable.note`, their entries, and `Resolves`, a computation that adds just these;
- `Expr.resolves`, the contract of `Expr.resolve`, and what it says about tables made from scratch.
-/

namespace ShaderRepair

namespace TypeTable

variable {α β γ : Type} {table : TypeTable} {xs ys : List (Expr (Nat × α))}

/-- The numbers of the expressions differ, and none of them has an entry. -/
def Fresh (table : TypeTable) (xs : List (Expr (Nat × α))) : Prop :=
  (xs.map Expr.handle ++ table.map Prod.fst).Nodup

/-- The table with the types of the expressions, one after the other. -/
def note (table : TypeTable) (xs : List (Expr (Nat × α))) : TypeTable :=
  (xs.map fun e => (e.handle, e.type)).reverse ++ table

theorem note_append : table.note (xs ++ ys) = (table.note xs).note ys := by
  simp [note]

theorem map_fst_note : (table.note xs).map Prod.fst =
    (xs.map Expr.handle).reverse ++ table.map Prod.fst := by
  simp [note, Function.comp_def]

theorem Fresh.nil (h : (xs.map Expr.handle).Nodup) : Fresh [] xs := by
  rwa [Fresh, List.map_nil, List.append_nil]

theorem Fresh.left (h : table.Fresh (xs ++ ys)) : table.Fresh xs := by
  unfold Fresh at h
  rw [List.map_append, List.append_assoc] at h
  exact h.sublist ((List.sublist_append_right _ _).append_left _)

/-- What is noted first does not stand in the way of the rest. -/
theorem Fresh.right (h : table.Fresh (xs ++ ys)) : (table.note xs).Fresh ys := by
  unfold Fresh at h ⊢
  rw [map_fst_note]
  rw [List.map_append] at h
  have hswap : (xs.map Expr.handle ++ ys.map Expr.handle).Perm
      (ys.map Expr.handle ++ (xs.map Expr.handle).reverse) :=
    List.perm_append_comm.trans ((List.reverse_perm _).symm.append_left _)
  rw [← List.append_assoc]
  exact (hswap.append_right _).nodup h

theorem Fresh.lookup_eq_none {e : Expr (Nat × α)} (h : table.Fresh xs) (he : e ∈ xs) :
    table.lookup e.handle = none := by
  rw [List.lookup_eq_none_iff]
  intro p hp
  exact bne_iff_ne.2 ((List.nodup_append.1 h).2.2 _ (List.mem_map_of_mem he) _
    (List.mem_map_of_mem hp))

/-- The entry of an expression that has been noted. -/
theorem Fresh.lookup_note (h : table.Fresh xs) {e : Expr (Nat × α)} (he : e ∈ xs) :
    (table.note xs).lookup e.handle = some e.type := by
  have hnodup : ((table.note xs).map Prod.fst).Nodup := by
    rw [map_fst_note]
    exact ((List.reverse_perm _).append_right _).symm.nodup h
  have hmem : (e.handle, e.type) ∈ table.note xs :=
    List.mem_append_left _ (List.mem_reverse.2 (List.mem_map_of_mem he))
  obtain ⟨before, after, hsplit⟩ := List.append_of_mem hmem
  rw [hsplit, List.map_append, List.nodup_append] at hnodup
  rw [hsplit, List.lookup_eq_some_iff]
  refine ⟨before, after, rfl, fun p hp => ?_⟩
  exact bne_iff_ne.2 (hnodup.2.2 _ (List.mem_map_of_mem hp) _ List.mem_cons_self).symm

/-- The computation notes the types of the expressions and answers `b`. -/
def Resolves (c : StateM TypeTable β) (table : TypeTable) (xs : List (Expr (Nat × α))) (b : β) :
    Prop :=
  c.run table = (b, table.note xs)

theorem Resolves.pure (b : β) : Resolves (return b) table ([] : List (Expr (Nat × α))) b := rfl

theorem Resolves.bind {c : StateM TypeTable β} {f : β → StateM TypeTable γ} {b : β} {d : γ}
    (h : Resolves c table xs b) (h' : Resolves (f b) (table.note xs) ys d) :
    Resolves (c >>= f) table (xs ++ ys) d := by
  unfold Resolves at *
  rw [StateT.run_bind, h, note_append]
  exact h'

/-- What is made of an answer at the end. -/
theorem Resolves.answer {c : StateM TypeTable β} {b : β} (f : β → γ)
    (h : Resolves c table xs b) : Resolves (c >>= fun b => return f b) table xs (f b) := by
  have hpure : Resolves (return f b) (table.note xs) ([] : List (Expr (Nat × α))) (f b) := .pure _
  have hbind : Resolves (c >>= fun b => return f b) table (xs ++ []) (f b) := h.bind hpure
  rwa [List.append_nil] at hbind

/-- The answer may not matter. -/
theorem Resolves.ignore {c : StateM TypeTable β} {b : β} (d : γ) (h : Resolves c table xs b) :
    Resolves (c >>= fun _ => return d) table xs d :=
  h.answer fun _ => d

/-- A new entry is made after those of the operands. -/
theorem Resolves.remember {find : StateM TypeTable ValueType} {e : Expr (Nat × α)}
    (hfresh : table.Fresh (xs ++ [e])) (h : Resolves find table xs e.type) :
    Resolves (TypeTable.remember e.handle find) table (xs ++ [e]) e.type := by
  have hnone := hfresh.lookup_eq_none (List.mem_append_right xs (List.mem_singleton_self e))
  unfold Resolves at *
  rw [TypeTable.remember, StateT.run_bind, StateT.run_get]
  simp only [pure_bind, hnone]
  rw [StateT.run_bind, h, note_append]
  rfl

end TypeTable

/-! ## Expressions -/

namespace Expr

open TypeTable

variable {α : Type}

mutual

/-- Typing an expression notes the types of everything in it, operands first. -/
theorem resolves (table : TypeTable) (e : Expr (Nat × α)) (h : table.Fresh e.postorder) :
    Resolves e.resolve table e.postorder e.type := by
  -- The notes for the operands come first, and the expression itself is not among them yet.
  match e with
  | .sequence a items =>
    rw [postorder, postorderAll_eq] at h ⊢
    exact .remember h (resolvesAll table items h.left)
  | .initializers a items =>
    rw [postorder, postorderAll_eq] at h ⊢
    exact .remember h ((resolvesAll table items h.left).ignore _)
  | .conditional a c y n =>
    rw [postorder] at h ⊢
    refine .remember h ?_
    have hc := resolves table c h.left.left.left
    have hy := resolves _ y h.left.left.right
    have hn := resolves _ n h.left.right
    rw [note_append] at hn
    rw [List.append_assoc]
    exact .bind hc (.bind hy (hn.answer _))
  | .binary a family op l r =>
    rw [postorder] at h ⊢
    have hl := resolves table l h.left.left
    have hr := resolves _ r h.left.right
    exact .remember h (.bind hl (hr.answer _))
  | .unary a op side x =>
    rw [postorder] at h ⊢
    exact .remember h ((resolves table x h.left).answer _)
  | .call a callee args =>
    rw [postorder, postorderAll_eq] at h ⊢
    have hcallee := resolves table callee h.left.left
    have hargs := resolvesAll _ args h.left.right
    exact .remember h (.bind hcallee (hargs.ignore _))
  | .member a x name =>
    rw [postorder] at h ⊢
    exact .remember h ((resolves table x h.left).ignore _)
  | .index a x i =>
    rw [postorder] at h ⊢
    have hx := resolves table x h.left.left
    have hi := resolves _ i h.left.right
    exact .remember h (.bind hx (hi.ignore _))
  | .unsized a x =>
    rw [postorder] at h ⊢
    exact .remember h ((resolves table x h.left).ignore _)
  | .identifier a name => exact .remember h (.pure _)
  | .literal a kind text => exact .remember h (.pure _)

theorem resolvesAll (table : TypeTable) (es : List (Expr (Nat × α)))
    (h : table.Fresh (es.flatMap postorder)) :
    Resolves (resolveAll es) table (es.flatMap postorder) (typeLast es) := by
  match es with
  | [] => exact .pure _
  | [e] =>
    rw [List.flatMap_singleton] at h ⊢
    exact resolves table e h
  | e :: e' :: more =>
    rw [List.flatMap_cons] at h ⊢
    exact .bind (resolves table e h.left) (resolvesAll _ (e' :: more) h.right)

end

variable {e : Expr (Nat × α)}

/-- The table of an expression. -/
theorem resolveTypes_eq (h : (e.postorder.map handle).Nodup) :
    e.resolveTypes = TypeTable.note [] e.postorder :=
  congrArg Prod.snd (resolves [] e (.nil h))

end Expr

/-- The table of a module. -/
theorem Module.resolve_eq {μ α : Type} {m : Module μ (Expr (Nat × α))}
    (h : (((m.nodes.flatMap Node.roots).flatMap Expr.postorder).map Expr.handle).Nodup) :
    m.resolve = TypeTable.note [] ((m.nodes.flatMap Node.roots).flatMap Expr.postorder) :=
  congrArg Prod.snd (Expr.resolvesAll [] _ (.nil h))

end ShaderRepair
