import ShaderRepair.Proofs.FollowExpression

/-!
# Descents through declarations follow procedures

One lemma for each procedure of the rules for declarations.
-/

namespace ShaderRepair

namespace Descent

namespace Input

open Grammar (Item Passable Procedure)

namespace Follows

variable {w : Input} {d low : Nat} {x : Symbol} {rules : Rules}

/-! ## Ends of declarations -/

/-- What has begun at some token, up to the one passed last. -/
theorem closing {i : Nat} {t : Token} {f : Extent Nat → Item} {f' : Extent Token → Declaration}
    (ht : t = w.token i) (hpos : 0 < low)
    (hf : ∀ X, f' (X.map w.token) = (f X).map w.token w.tree) :
    w.Follows d low low x (Node.map w.token w.tree)
      (Procedure.extentFrom i >>= fun X => Pure.pure (f X))
      (Descent.extentFrom t >>= fun X => Pure.pure (f' X)) :=
  bind (extentFrom ht hpos) fun X _ => pure (hf X) (Nat.le_refl _)

/-- The same with a semicolon at its end. -/
theorem ending {i : Nat} {t : Token} {f : Extent Nat → Item} {f' : Extent Token → Declaration}
    (ht : t = w.token i) (hpos : 0 < low)
    (hf : ∀ X, f' (X.map w.token) = (f X).map w.token w.tree) :
    w.Follows d low low x (Node.map w.token w.tree)
      (Procedure.statementEnd >>= fun _ => Procedure.extentFrom i >>= fun X => Pure.pure (f X))
      (Descent.statementEnd >>= fun _ => Descent.extentFrom t >>= fun X => Pure.pure (f' X)) :=
  bind (statementEnd hpos) fun _ _ => closing ht hpos hf

section Bodies

variable (h : w.FollowsRules d rules)
include h

/-! ## Qualifiers and types -/

theorem layoutParams :
    w.Follows d low low x (List.map (LayoutParam.map w.token w.tree)) Grammar.layoutParams
      (Descent.layoutParams rules) := by
  refine check (fun _ => pure rfl (Nat.le_refl _)) fun _ => ?_
  refine bind (expect fun y hy => .of_any hy (by decide)) fun name _ => ?_
  -- What comes behind a parameter, with or without a value.
  have hmore : ∀ {low' : Nat} (value : Option Grammar.Tree) (y : Symbol), low ≤ low' →
      w.Follows d low' low y (List.map (LayoutParam.map w.token w.tree))
        (do
          if ← Procedure.accept (.kind .comma) then
            return ⟨name, value⟩ :: (← Procedure.run .layoutParams)
          else
            return [⟨name, value⟩])
        (do
          if ← Descent.accept (.kind .comma) then
            return ⟨name.map w.token, value.map w.tree⟩ :: (← rules.layoutParams)
          else
            return [⟨name.map w.token, value.map w.tree⟩]) := by
    intro low' value y hle
    refine accept_kind (by decide) (fun _ => ?_) (pure rfl hle)
    exact bind h.layoutParams fun params _ => pure rfl (by omega)
  refine accept (fun _ hy => .of_accepts hy (by decide)) (fun _ => ?_) ?_
  · exact bind (optional h.assignment) fun value y => hmore value y (by omega)
  · exact bind omitted fun value y => hmore value y (by omega)

theorem qualifiers (found : Qualifiers Nat Grammar.Tree) :
    w.Follows d low low x (Qualifiers.map w.token w.tree) (Grammar.qualifiers found)
      (Descent.qualifiers rules (found.map w.token w.tree)) := by
  refine next fun t ht => ?_
  split
  · next hx =>
    simp only [ht.kind, hx]
    refine bind (take (.of_kind hx (by decide))) fun _ _ => ?_
    refine bind (expect_kind (by decide)) fun _ _ => bind h.layoutParams fun params _ => ?_
    refine bind (rightParen (Nat.succ_pos _)) fun _ _ => ?_
    have hfound : (⟨(found.map w.token w.tree).layout ++
          params.map (LayoutParam.map w.token w.tree),
        (found.map w.token w.tree).words⟩ : Qualifiers Token Tree) =
        Qualifiers.map w.token w.tree ⟨found.layout ++ params, found.words⟩ := by
      rw [Qualifiers.map, Qualifiers.map, List.map_append]
    rw [hfound]
    exact (h.qualifiers _).mono (by omega)
  · next hx =>
    simp only [ht.kind, hx]
    refine bind (take (.of_kind hx (by decide))) fun word _ => ?_
    rw [ht.tags (Passable.of_kind hx (by decide)).2]
    refine choose (by rw [Qualifiers.map, List.any_map]; rfl) (fun _ => ?_) fun _ => ?_
    · exact (h.qualifiers found).mono (Nat.le_succ _)
    · have hfound : (⟨(found.map w.token w.tree).layout,
            (found.map w.token w.tree).words ++ [⟨word.map w.token, x.tags.qualifier⟩]⟩ :
            Qualifiers Token Tree) =
          Qualifiers.map w.token w.tree
            ⟨found.layout, found.words ++ [⟨word, x.tags.qualifier⟩]⟩ := by
        rw [Qualifiers.map, Qualifiers.map, List.map_append]
        rfl
      rw [hfound]
      exact (h.qualifiers _).mono (Nat.le_succ _)
  · simp only [ht.kind]
    exact pure rfl (Nat.le_refl _)

theorem dims :
    w.Follows d low low x (List.map (Option.map w.tree)) Grammar.dims (Descent.dims rules) := by
  -- What comes behind the size of a dimension.
  have hmore : ∀ {low' : Nat} (size : Option Grammar.Tree) (y : Symbol), low ≤ low' →
      w.Follows d low' low y (List.map (Option.map w.tree))
        (do
          let _ ← Procedure.expect [.kind .rightBracket]
          return size :: (← Procedure.run .dims))
        (do
          let _ ← Descent.expect [.kind .rightBracket]
          return size.map w.tree :: (← rules.dims)) := by
    intro low' size y hle
    refine bind (expect_kind (by decide)) fun _ _ => bind h.dims fun sizes _ => ?_
    exact pure rfl (by omega)
  refine accept_kind (by decide) (fun y => ?_) (pure rfl (Nat.le_refl _))
  refine check (fun _ => ?_) fun _ => ?_
  · exact bind omitted fun size y => hmore size y (by omega)
  · exact bind (optional h.expression) fun size y => hmore size y (by omega)

theorem typeSpec :
    w.Follows d low (low + 1) x (TypeSpec.map w.token w.tree) Grammar.typeSpec
      (Descent.typeSpec rules) :=
  bind (expect_kind (by decide)) fun _ _ => bind h.dims fun _ _ => pure rfl (Nat.le_refl _)

/-! ## Variables -/

theorem declarators :
    w.Follows d low low x (List.map (Declarator.map w.token w.tree)) Grammar.declarators
      (Descent.declarators rules) := by
  refine bind (expect_kind (by decide)) fun name _ => bind h.dims fun sizes _ => ?_
  refine accept_kind (by decide) (fun _ => ?_) (pure rfl (by omega))
  exact bind h.declarators fun ds _ => pure rfl (by omega)

theorem initialValue (type : TypeSpec Nat Grammar.Tree) (sizes : List (Option Grammar.Tree)) :
    w.Follows d low low x (Option.map w.tree) (Grammar.initialValue type sizes)
      (Descent.initialValue rules (type.map w.token w.tree) (sizes.map (Option.map w.tree))) := by
  refine accept (fun _ hy => .of_accepts hy (by decide)) (fun _ => ?_) omitted
  refine position fun i hi => bind h.initializer fun e _ => ?_
  exact convert (Nat.succ_pos _) fun _ => pure rfl (by omega)

theorem vars (type : TypeSpec Nat Grammar.Tree) (name : Name Nat) :
    w.Follows d low low x (List.map (Declarator.map w.token w.tree)) (Grammar.vars type name)
      (Descent.vars rules (type.map w.token w.tree) (name.map w.token)) := by
  refine bind h.dims fun sizes _ => bind (initialValue h type sizes) fun init _ => ?_
  refine accept_kind (by decide) (fun _ => ?_) (pure rfl (Nat.le_refl _))
  refine bind (expect_kind (by decide)) fun another _ => ?_
  exact bind (h.vars type another) fun ds _ => pure rfl (by omega)

/-! ## Functions -/

theorem param :
    w.Follows d low (low + 1) x (Param.map w.token w.tree) Grammar.param (Descent.param rules) := by
  refine bind (h.qualifiers ⟨[], []⟩) fun quals _ => bind (typeSpec h) fun type _ => ?_
  refine check (fun hx => ?_) fun _ => pure rfl (Nat.le_refl _)
  refine bind (take (.of_kind hx (by decide))) fun name _ => bind h.dims fun sizes _ => ?_
  exact pure rfl (Nat.le_succ _)

theorem params :
    w.Follows d low low x (List.map (Param.map w.token w.tree)) Grammar.params
      (Descent.params rules) := by
  refine next fun t ht => ?_
  split
  · next hx =>
    simp only [ht.kind, hx]
    exact pure rfl (Nat.le_refl _)
  · next hx =>
    simp only [ht.kind, hx]
    exact pure rfl (Nat.le_refl _)
  · next hx =>
    simp only [ht.kind, hx]
    exact pure rfl (Nat.le_refl _)
  · simp only [ht.kind]
    refine bind (param h) fun p _ => ?_
    refine accept_kind (by decide) (fun _ => ?_) (pure rfl (Nat.le_succ _))
    exact bind h.params fun ps _ => pure rfl (by omega)

/-- Items in braces. -/
theorem block :
    w.Follows d low (low + 1) x (Prod.map (Extent.map w.token) (Node.mapAll w.token w.tree))
      Grammar.block (Descent.block rules) := by
  refine bind (expect_kind (by decide)) fun opening _ => bind (h.items .brace) fun body _ => ?_
  refine bind (expect_kind (by decide)) fun _ _ => ?_
  exact bind (extentFrom rfl (Nat.succ_pos _)) fun X _ => pure rfl (by omega)

theorem function {i : Nat} {t : Token} (ht : t = w.token i) (hx : Passable x)
    (quals : Qualifiers Nat Grammar.Tree) (result : TypeSpec Nat Grammar.Tree) (name : Name Nat) :
    w.Follows d low low x (Node.map w.token w.tree) (Grammar.function i quals result name)
      (Descent.function rules t (quals.map w.token w.tree) (result.map w.token w.tree)
        (name.map w.token)) := by
  refine bind (take hx) fun _ _ => bind h.params fun ps _ => ?_
  refine bind (rightParen (Nat.succ_pos _)) fun _ _ => check (fun _ => ?_) fun _ => ?_
  · refine bind (block h) fun body _ => ?_
    exact (closing ht (Nat.succ_pos _) fun _ => rfl).mono (by omega)
  · exact (ending ht (Nat.succ_pos _) fun _ => rfl).mono (by omega)

theorem typed {i : Nat} {t : Token} (ht : t = w.token i) (quals : Qualifiers Nat Grammar.Tree) :
    w.Follows d low low x (Node.map w.token w.tree) (Grammar.typed i quals)
      (Descent.typed rules t (quals.map w.token w.tree)) := by
  refine bind (typeSpec h) fun type _ => bind (expect_kind (by decide)) fun name _ => ?_
  refine check (fun hx => ?_) fun _ => ?_
  · exact (function h ht (.of_kind hx (by decide)) quals type name).mono (by omega)
  · refine bind (h.vars type name) fun ds _ => ?_
    exact (ending ht (Nat.succ_pos _) fun _ => rfl).mono (by omega)

/-! ## Structs and interface blocks -/

theorem member :
    w.Follows d low (low + 1) x (Member.map w.token w.tree) Grammar.member
      (Descent.member rules) := by
  refine position fun i hi => bind (h.qualifiers ⟨[], []⟩) fun quals _ => ?_
  refine bind (typeSpec h) fun type _ => bind h.declarators fun ds _ => ?_
  refine bind (statementEnd (Nat.succ_pos _)) fun _ _ => ?_
  exact bind (extentFrom rfl (Nat.succ_pos _)) fun X _ => pure rfl (by omega)

theorem members :
    w.Follows d low low x (List.map (Member.map w.token w.tree)) Grammar.members
      (Descent.members rules) := by
  refine next fun t ht => ?_
  split
  · next hx =>
    simp only [ht.kind, hx]
    exact pure rfl (Nat.le_refl _)
  · next hx =>
    simp only [ht.kind, hx]
    exact pure rfl (Nat.le_refl _)
  · simp only [ht.kind]
    refine bind (member h) fun m _ => bind h.members fun ms _ => ?_
    exact pure rfl (Nat.le_succ _)

theorem memberList :
    w.Follows d low (low + 1) x (List.map (Member.map w.token w.tree)) Grammar.memberList
      (Descent.memberList rules) := by
  refine bind (expect_kind (by decide)) fun _ _ => bind h.members fun ms _ => ?_
  exact bind (expect_kind (by decide)) fun _ _ => pure rfl (Nat.le_succ _)

/-- Names on the line of the closing brace. -/
theorem instances :
    w.Follows d low low x (List.map (Declarator.map w.token w.tree)) Grammar.instances
      (Descent.instances rules) := by
  refine strict fun t u ht hu => ?_
  refine choose (hu.kind_iff ht (by decide)) (fun _ => h.declarators) fun _ => ?_
  exact pure rfl (Nat.le_refl _)

/-- A struct or an interface block behind its name. -/
theorem membered {i : Nat} {t : Token} (ht : t = w.token i)
    {f : List (Member Nat Grammar.Tree) → List (Declarator Nat Grammar.Tree) → Extent Nat → Item}
    {f' : List (Member Token Tree) → List (Declarator Token Tree) → Extent Token → Declaration}
    (hf : ∀ ms ds X, f' (ms.map (Member.map w.token w.tree))
      (ds.map (Declarator.map w.token w.tree)) (X.map w.token) = (f ms ds X).map w.token w.tree) :
    w.Follows d low low x (Node.map w.token w.tree)
      (do
        let ms ← Grammar.memberList
        let ds ← Grammar.instances
        Procedure.statementEnd
        return f ms ds (← Procedure.extentFrom i))
      (do
        let ms ← Descent.memberList rules
        let ds ← Descent.instances rules
        Descent.statementEnd
        return f' ms ds (← Descent.extentFrom t)) := by
  refine bind (memberList h) fun ms _ => bind (instances h) fun ds _ => ?_
  exact (ending ht (Nat.succ_pos _) (hf ms ds)).mono (Nat.le_succ _)

theorem struct {i : Nat} {t : Token} (ht : t = w.token i) (hx : Passable x)
    (quals : Qualifiers Nat Grammar.Tree) :
    w.Follows d low low x (Node.map w.token w.tree) (Grammar.struct i quals)
      (Descent.struct rules t (quals.map w.token w.tree)) := by
  have hmore : ∀ {low' : Nat} (name : Option (Name Nat)) (y : Symbol), low ≤ low' →
      w.Follows d low' low y (Node.map w.token w.tree)
        (do
          let ms ← Grammar.memberList
          let ds ← Grammar.instances
          Procedure.statementEnd
          return .struct (← Procedure.extentFrom i) quals name ms ds)
        (do
          let ms ← Descent.memberList rules
          let ds ← Descent.instances rules
          Descent.statementEnd
          return .struct (← Descent.extentFrom t) (quals.map w.token w.tree)
            (name.map (Name.map w.token)) ms ds) :=
    fun name y hle => (membered h ht fun _ _ _ => rfl).mono hle
  refine bind (take hx) fun _ _ => check (fun hy => ?_) fun _ => ?_
  · exact bind (optional (take (.of_kind hy (by decide)))) fun name y => hmore name y (by omega)
  · exact bind omitted fun name y => hmore name y (by omega)

theorem interface {i : Nat} {t : Token} (ht : t = w.token i) (hx : Passable x)
    (quals : Qualifiers Nat Grammar.Tree) :
    w.Follows d low low x (Node.map w.token w.tree) (Grammar.interface i quals)
      (Descent.interface rules t (quals.map w.token w.tree)) := by
  refine bind (take hx) fun name _ => ?_
  exact (membered h ht fun _ _ _ => rfl).mono (Nat.le_succ _)

/-! ## Declarations that begin with a word of their own -/

theorem names :
    w.Follows d low (low + 1) x (List.map (Name.map w.token)) Grammar.names
      (Descent.names rules) := by
  refine bind (expect_kind (by decide)) fun name _ => ?_
  refine accept_kind (by decide) (fun _ => ?_) (pure rfl (Nat.le_refl _))
  exact bind h.names fun ns _ => pure rfl (by omega)

theorem precision (hx : Passable x) :
    w.Follows d low low x (Node.map w.token w.tree) Grammar.precision
      (Descent.precision rules) := by
  refine bind (take hx) fun first _ => next fun t ht => ?_
  -- The word was looked at before it was accepted, and its class says something only then.
  refine expect_then (by decide) fun hy word _ => ?_
  rw [ht.tags (Passable.of_kind hy (by decide)).2]
  refine choose Iff.rfl (fun _ => ?_) fun _ => reject
  refine bind (typeSpec h) fun type _ => ?_
  exact (ending rfl (Nat.succ_pos _) fun _ => rfl).mono (by omega)

theorem qualified :
    w.Follows d low low x (Node.map w.token w.tree) Grammar.qualified
      (Descent.qualified rules) := by
  refine position fun i hi => bind (h.qualifiers ⟨[], []⟩) fun quals y => next fun t ht => ?_
  split
  · next hy =>
    simp only [ht.kind, hy]
    exact (struct h rfl (.of_kind hy (by decide)) quals).mono hi
  · next hy =>
    simp only [ht.kind, hy]
    refine bind (statementEnd_of_semicolon hy) fun _ _ => ?_
    exact (closing rfl (Nat.succ_pos _) fun _ => rfl).mono (by omega)
  · next hy =>
    simp only [ht.kind, hy]
    -- Behind a name there is another token, and both of them look at it.
    refine second (.of_kind hy (by decide)) fun z u hu => ?_
    split
    · next hz =>
      simp only [hu.kind, hz]
      exact (interface h rfl (.of_kind hy (by decide)) quals).mono hi
    · next hz =>
      simp only [hu.kind, hz]
      refine bind h.names fun ns _ => ?_
      exact (ending rfl (Nat.succ_pos _) fun _ => rfl).mono (by omega)
    · next hz =>
      simp only [hu.kind, hz]
      refine bind h.names fun ns _ => ?_
      exact (ending rfl (Nat.succ_pos _) fun _ => rfl).mono (by omega)
    · simp only [hu.kind]
      exact (typed h rfl quals).mono hi
  · simp only [ht.kind]
    exact reject_here

end Bodies

end Follows

end Input

end Descent

end ShaderRepair
