import ShaderRepair.Proofs.Listing
import ShaderRepair.Proofs.Precedence

/-!
# Reading printed declarations

The printed parts of declarations are read back: dimensions, types, qualifiers, initializers,
declarators, members and parameters. Each part is read up to what may follow it, which is mostly a
mark. An initializer may be noted for a conversion; nothing else is found missing.
-/

namespace ShaderRepair

open Grammar Grammar.Procedure ShaderRepair.Symbol
open Text (ascii)

/-- What may be missing of well-formed declarations. -/
def Grammar.Missing.IsConversion (m : Missing) : Prop :=
  ∃ T first, m = .conversion T first

variable {K : Missing → Prop}

/-! ## Marks that end a part -/

/-- The marks that end a part of a declaration. -/
def closingKinds : List Kind :=
  [.comma, .semicolon, .rightParen, .rightBrace]

section Closing

variable {k : Kind}

theorem finishes_closing (hk : k ∈ closingKinds) : Finishes (mark k) := by
  have hall : ∀ k ∈ closingKinds, k ∉ [Kind.dot, .leftBracket, .leftParen] := by decide
  exact finishes_mark_of_not_mem (hall k hk)

theorem not_equals_closing (hk : k ∈ closingKinds) : equals.accepts (mark k) = false := by
  have hall : ∀ k ∈ closingKinds, k ≠ .operator := by decide
  simp [equals, Expectation.accepts, hall k hk]

theorem closing_ne (hk : k ∈ closingKinds) {k' : Kind} (hk' : k' ∉ closingKinds) : k ≠ k' := by
  rintro rfl
  exact hk' hk

end Closing

/-! ## Lists -/

/-- Things between commas up to a mark, by a rule that reads one of them, looks for a comma and
calls itself. -/
theorem parses_commas {β γ : Type} {self : Procedure (List β)} {bare : β → γ}
    {f : γ → List Symbol} {close : Kind} (hclose : close ∈ closingKinds) (hcomma : close ≠ .comma)
    {cs : List γ}
    (hself : ∀ c ∈ cs, ∀ k ∈ closingKinds, ∀ ⦃rest m : List Symbol⦄ ⦃Q : List β → Prop⦄,
      (∀ b, bare b = c → Parses K (do
          if ← accept (.kind .comma) then
            return b :: (← self)
          else
            return [b]) (mark k :: rest) Q m) →
        Parses K self (f c ++ mark k :: rest) Q m)
    (hne : cs ≠ []) (rest : List Symbol) :
    Parses K self (commas (cs.map f) ++ mark close :: rest) (fun bs => bs.map bare = cs)
      (mark close :: rest) := by
  induction cs with
  | nil => exact absurd rfl hne
  | cons c more ih =>
    obtain ⟨hc, hmore⟩ := List.forall_mem_cons.1 hself
    -- The last one is followed by the closing mark, every other one by a comma.
    cases more with
    | nil =>
      rw [List.map_singleton, commas, List.flatMap_nil, List.append_nil]
      refine hc close hclose fun b hb => .passKind (by exact hcomma) (.done ?_)
      rw [List.map_singleton, hb]
    | cons c' more =>
      rw [List.map_cons, List.map_cons, commas_cons, List.append_assoc, List.cons_append]
      refine hc .comma (by decide) fun b hb => .accept rfl ?_
      refine .bind (ih hmore (List.cons_ne_nil _ _)) fun bs hbs => .done ?_
      rw [List.map_cons, hb, hbs]

/-! ## Dimensions and types -/

/-- An expression that might not be there is there. -/
theorem Reads.some {t : Tier} {w rest : List Symbol} {e : Expr Unit} (h : Reads K t w e)
    (hrest : t.Ends (rest.headD Symbol.finish)) :
    Parses K (some <$> t.procedure) (w ++ rest) (fun a => a.map Expr.bare = .some e) rest :=
  .map (h hrest) fun _ ha => congrArg Option.some ha

theorem parses_dims {ds : List (Option (Expr Unit))} (hds : Expr.areDims ds = true)
    {rest : List Symbol} (hrest : (rest.headD Symbol.finish).kind ≠ .leftBracket) :
    Parses K (run .dims) (Expr.dims ds ++ rest) (fun as => as.map (Option.map Expr.bare) = ds)
      rest := by
  induction ds with
  | nil => exact .call (.passKind hrest (.done rfl))
  | cons d more ih =>
    simp only [Expr.areDims, List.all_cons, Bool.and_eq_true] at hds
    have hmore := ih hds.2
    rw [Expr.dims, List.flatMap_cons, List.append_assoc, brackets_append]
    refine .call (.accept rfl (.next ?_))
    -- A dimension without a size is told by the bracket that closes at once.
    cases d with
    | none =>
      refine .yes rfl (.expectKind rfl fun n => .bind hmore fun as has => .done ?_)
      rw [List.map_cons, has]
      rfl
    | some e =>
      have hne := (e.phrase_words hds.1).starts.head_ne
        (mark .rightBracket :: (Expr.dims more ++ rest)) (k := .rightBracket) (by decide)
      refine .no hne (.bind ((Expr.reads hds.1).some (ends_mark (by decide) _)) fun a ha => ?_)
      refine .expectKind rfl fun n => .bind hmore fun as has => .done ?_
      rw [List.map_cons, ha, has]

theorem parses_typeSpec {t : TypeSpec Unit (Expr Unit)} (ht : t.isWellFormed = true)
    {rest : List Symbol} (hrest : (rest.headD Symbol.finish).kind ≠ .leftBracket) :
    Parses K typeSpec (t.symbols ++ rest) (fun a => a.bare = t) rest := by
  rw [TypeSpec.isWellFormed, Bool.and_eq_true] at ht
  refine .expectKind rfl fun n => .bind (parses_dims ht.2 hrest) fun as has => ?_
  exact .done (congrArg (TypeSpec.mk t.name) has)

/-! ## Qualifiers -/

namespace Symbol

@[simp] theorem layoutWord_lexeme (w : Text) : (layoutWord w).lexeme = w := by
  unfold layoutWord
  split <;> rfl

theorem layoutWord_kind (w : Text) : (layoutWord w).kind ∈ [Kind.identifier, .qualifier] := by
  unfold layoutWord
  split <;> simp

theorem accepts_layoutWord (w : Text) :
    ([.kind .identifier, .word .qualifier (ascii "shared")].any fun e : Expectation =>
      e.accepts (layoutWord w)) = true := by
  unfold layoutWord
  split
  · next h => simp [Expectation.accepts, h, qualifier]
  · simp [Expectation.accepts]

end Symbol

/-- The value of a layout parameter, if there is one. -/
theorem parses_layoutValue {α : Type} {value : Option (Expr Unit)}
    (hvalue : value.all Expr.isWellFormed = true) {k : Kind} (hk : k ∈ closingKinds)
    {rest m : List Symbol} {Q : α → Prop} {f : Option Tree → Procedure α}
    (hf : ∀ v, v.map Expr.bare = value → Parses K (f v) (mark k :: rest) Q m) :
    Parses K (do
      if ← accept equals then
        (some <$> run .assignment) >>= f
      else
        f none) (Expr.assigned value ++ mark k :: rest) Q m := by
  cases value with
  | none => exact .pass (not_equals_closing hk) (.no Bool.false_ne_true (hf none rfl))
  | some e =>
    have hread := (e.offers hvalue).reads_at (K := K) .assignment
    refine .accept rfl (.yes rfl ?_)
    exact .bind (hread.some (finishes_closing hk)) hf

theorem parses_layoutParams {ps : List (LayoutParam Unit (Expr Unit))}
    (hps : ∀ p ∈ ps, p.isWellFormed = true) (hne : ps ≠ []) (rest : List Symbol) :
    Parses K (run .layoutParams) (commas (ps.map LayoutParam.symbols) ++ mark .rightParen :: rest)
      (fun as => as.map LayoutParam.bare = ps) (mark .rightParen :: rest) := by
  refine parses_commas (by decide) (by decide) (fun p hp k hk rest m Q hmore => ?_) hne rest
  have hwf := hps p hp
  rw [LayoutParam.isWellFormed, Bool.and_eq_true] at hwf
  have hkind : ∀ k ∈ [Kind.identifier, .qualifier], k ≠ .rightParen := by decide
  have hword := hkind _ (layoutWord_kind p.name.text)
  refine .call (.next (.no hword (.expect (accepts_layoutWord _) fun n => ?_)))
  refine parses_layoutValue hwf.2 hk fun v hv => hmore _ ?_
  rw [layoutWord_lexeme]
  exact congrArg (LayoutParam.mk p.name) hv

/-- Keywords of classes that are not there yet. -/
theorem parses_words {ws : List (Qualifier Unit)} (hnodup : (ws.map Qualifier.kind).Nodup)
    {rest : List Symbol} (hrest : (rest.headD Symbol.finish).kind ∉ [Kind.layout, .qualifier])
    (found : Qualifiers Nat Tree)
    (hfound : ∀ w ∈ ws, ∀ q ∈ found.words, q.kind ≠ w.kind) :
    Parses K (run (.qualifiers found)) (ws.map Qualifier.symbol ++ rest)
      (fun a => a.bare = ⟨found.bare.layout, found.bare.words ++ ws⟩) rest := by
  induction ws generalizing found with
  | nil =>
    refine .call (.next ?_)
    split
    · next h => exact absurd (List.mem_cons.2 (.inl h)) hrest
    · next h => exact absurd (List.mem_cons.2 (.inr (List.mem_singleton.2 h))) hrest
    · exact .done (by rw [List.append_nil])
  | cons w ws ih =>
    rw [List.map_cons, List.nodup_cons] at hnodup
    -- The keyword is the first one of its class, so it is kept, and counts as found from now on.
    have hnew : ∀ q ∈ found.words, q.kind ≠ w.kind := hfound w List.mem_cons_self
    refine .call (.next (.take fun n => .no ?_ ?_))
    · simpa [Qualifier.symbol, qualifier] using hnew
    · refine (ih hnodup.2 _ ?_).weaken fun a ha => ?_
      · intro v hv q hq
        rcases List.mem_append.1 hq with hq | hq
        · exact hfound v (List.mem_cons_of_mem w hv) q hq
        · rw [List.mem_singleton.1 hq]
          intro hkind
          exact hnodup.1 (List.mem_map.2 ⟨v, hv, hkind.symm⟩)
      · rw [ha]
        simp [Qualifiers.bare, Qualifiers.map, Qualifier.map, Name.map, Qualifier.symbol, qualifier]

theorem parses_qualifiers {q : Qualifiers Unit (Expr Unit)} (hq : q.isWellFormed = true)
    {rest : List Symbol} (hrest : (rest.headD Symbol.finish).kind ∉ [Kind.layout, .qualifier]) :
    Parses K (run (.qualifiers ⟨[], []⟩)) (q.symbols ++ rest) (fun a => a.bare = q) rest := by
  simp only [Qualifiers.isWellFormed, Bool.and_eq_true, List.all_eq_true, decide_eq_true_eq] at hq
  obtain ⟨⟨hlayout, -⟩, hnodup⟩ := hq
  obtain ⟨layout, words⟩ := q
  rw [Qualifiers.symbols, List.append_assoc]
  cases layout with
  | nil => exact parses_words hnodup hrest _ (by simp)
  | cons p layout =>
    rw [if_neg (by simp), List.cons_append, parens_append]
    refine .call (.next (.take fun _ => ?_))
    refine .expectKind rfl fun _ => ?_
    refine .bind (parses_layoutParams hlayout (by simp) _) fun as has => ?_
    refine .orMissing ?_
    refine (parses_words hnodup hrest _ (by simp)).weaken fun a ha => ?_
    rw [ha]
    exact congrArg (fun layout => Qualifiers.mk layout words) has

/-! ## Initializers -/

namespace Expr

theorem starts_initializer {e : Expr Unit} (h : e.isInitializer = true) :
    Starts (.leftBrace :: expressionKinds) (e.wordsAt .assignment) := by
  have hexpr : ∀ {e : Expr Unit}, e.isWellFormed = true →
      Starts (.leftBrace :: expressionKinds) (e.wordsAt .assignment) := fun {e} h =>
    (phrase_enclose (phrase_words e h)).starts.mono (List.subset_cons_self _ _)
  cases e with
  | initializers a items =>
    rw [wordsAt_initializers]
    exact .cons List.mem_cons_self _
  | _ => exact hexpr h

end Expr

mutual

theorem parses_initializer (e : Expr Unit) (h : e.isInitializer = true) {rest : List Symbol}
    (hrest : Finishes (rest.headD Symbol.finish)) :
    Parses K (run .initializer) (e.wordsAt .assignment ++ rest) (fun a => a.bare = e) rest := by
  -- All forms but a list in braces are read by the rule for assignments.
  have hexpr : ∀ {e : Expr Unit}, e.isWellFormed = true →
      Parses K (run .initializer) (e.wordsAt .assignment ++ rest) (fun a => a.bare = e) rest := by
    intro e h
    have hstarts : Starts expressionKinds (e.wordsAt .assignment) :=
      (Expr.phrase_enclose (e.phrase_words h)).starts
    exact .call (.next (.no (hstarts.head_ne rest (by decide))
      ((e.offers h).reads_at .assignment hrest)))
  match e, h with
  | .initializers _ items, h =>
    rw [Expr.wordsAt_initializers, braces_append]
    refine .call (.next (.yes rfl (.take fun _ => ?_)))
    refine .bind (parses_elements items h rest) fun as has => ?_
    refine .expectKind rfl fun _ => .make_done fun X => ?_
    rw [Expr.bare_initializers, has]
  | .sequence .., h | .conditional .., h | .binary .., h | .unary .., h | .call .., h
  | .member .., h | .index .., h | .unsized .., h | .identifier .., h | .literal .., h =>
    exact hexpr h

theorem parses_elements (es : List (Expr Unit)) (h : Expr.areInitializers es = true)
    (rest : List Symbol) :
    Parses K (run .elements) (Expr.wordsAll es ++ mark .rightBrace :: rest)
      (fun as => as.map Expr.bare = es) (mark .rightBrace :: rest) := by
  match es, h with
  | [], _ => exact .call (.next (.yes rfl (.done rfl)))
  | [e], h =>
    simp only [Expr.areInitializers, Bool.and_true] at h
    have hends : Finishes ((mark .rightBrace :: rest).headD Symbol.finish) :=
      finishes_closing (by decide)
    have hread := parses_initializer e h hends
    refine .call (.next (.no ((Expr.starts_initializer h).head_ne _ (by decide)) ?_))
    refine .bind hread fun a ha => .next (.no Bool.false_ne_true (.done ?_))
    rw [List.map_singleton, ha]
  | e :: e' :: more, h =>
    rw [Expr.areInitializers, Bool.and_eq_true] at h
    have hread := parses_initializer e h.1 (finishes_comma
      (Expr.wordsAll (e' :: more) ++ mark .rightBrace :: rest))
    rw [Expr.wordsAll_cons, List.append_assoc, List.cons_append]
    refine .call (.next (.no ((Expr.starts_initializer h.1).head_ne _ (by decide)) ?_))
    refine .bind hread fun a ha => .next (.yes rfl (.orMissing ?_))
    refine .bind (parses_elements (e' :: more) h.2 rest) fun as has => .done ?_
    rw [List.map_cons, ha, has]

end

/-! ## Variables -/

/-- The initializer of a variable, if there is one. It is noted where it might be converted. -/
theorem parses_initialValue {init : Option (Expr Unit)} (h : init.all Expr.isInitializer = true)
    (type : TypeSpec Nat Tree) (ds : List (Option Tree)) {k : Kind} (hk : k ∈ closingKinds)
    (rest : List Symbol) :
    Parses Missing.IsConversion (initialValue type ds) (Expr.assigned init ++ mark k :: rest)
      (fun a => a.map Expr.bare = init) (mark k :: rest) := by
  cases init with
  | none => exact .pass (not_equals_closing hk) (.done rfl)
  | some e =>
    refine .accept rfl (.position fun first => ?_)
    refine .bind (parses_initializer e h (finishes_closing hk)) fun a ha => ?_
    -- Whether a conversion is noted or not, the initializer is the same.
    have hdone : Parses Missing.IsConversion (pure (some a)) (mark k :: rest)
        (fun a => a.map Expr.bare = some e) (mark k :: rest) := .done (congrArg some ha)
    by_cases hc : (type.dims.isEmpty && ds.isEmpty && a.needsConversion type.name.text) = true
    · exact .yes hc (.note ⟨_, _, rfl⟩ hdone)
    · exact .no hc hdone

/-- What follows the name of a declarator, whatever its type is. -/
theorem parses_rest {α : Type} {d : Declarator Unit (Expr Unit)} (hd : d.isWellFormed = true)
    {name : Name Nat} (hname : name.bare = d.name) (type : TypeSpec Nat Tree) {k : Kind}
    (hk : k ∈ closingKinds) {rest m : List Symbol} {Q : α → Prop}
    {f : List (Option Tree) → Option Tree → Procedure α}
    (hf : ∀ dims init, (Declarator.mk name dims init).bare = d →
      Parses Missing.IsConversion (f dims init) (mark k :: rest) Q m) :
    Parses Missing.IsConversion (do
      let dims ← run .dims
      let init ← initialValue type dims
      f dims init) (d.rest ++ mark k :: rest) Q m := by
  simp only [Declarator.isWellFormed, Bool.and_eq_true] at hd
  -- The dimensions end where no other bracket opens.
  have hne : ((Expr.assigned d.init ++ mark k :: rest).headD Symbol.finish).kind ≠
      .leftBracket := by
    cases d.init with
    | none => exact closing_ne hk (by decide)
    | some e => exact Kind.noConfusion
  rw [Declarator.rest, List.append_assoc]
  refine .bind (parses_dims hd.1.2 hne) fun ds hds => ?_
  refine .bind (parses_initialValue hd.2 type ds hk rest) fun init hinit => hf _ _ ?_
  change Declarator.mk name.bare (ds.map (Option.map Expr.bare)) (init.map Expr.bare) = d
  rw [hname, hds, hinit]

/-- Variables, the name of the first one being read already. -/
theorem parses_vars {d : Declarator Unit (Expr Unit)} {more : List (Declarator Unit (Expr Unit))}
    (hds : ∀ a ∈ d :: more, a.isWellFormed = true) (type : TypeSpec Nat Tree) {name : Name Nat}
    (hname : name.bare = d.name) (rest : List Symbol) :
    Parses Missing.IsConversion (run (.vars type name))
      (d.rest ++ (more.flatMap (fun d => mark .comma :: d.symbols) ++ mark .semicolon :: rest))
      (fun as => as.map Declarator.bare = d :: more) (mark .semicolon :: rest) := by
  -- The induction is on the variables behind the first one, whose name has been read.
  induction more generalizing d name with
  | nil =>
    obtain ⟨hd, -⟩ := List.forall_mem_cons.1 hds
    refine .call (parses_rest hd hname type (k := .semicolon) (by decide) fun dims init ha => ?_)
    exact .passKind Kind.noConfusion (.done (congrArg (fun a => [a]) ha))
  | cons d' more ih =>
    obtain ⟨hd, hmore⟩ := List.forall_mem_cons.1 hds
    simp only [List.flatMap_cons, Declarator.symbols, List.cons_append, List.append_assoc]
    refine .call (parses_rest hd hname type (k := .comma) (by decide) fun dims init ha => ?_)
    refine .accept rfl (.expectKind rfl fun n => ?_)
    refine .bind (ih hmore rfl) fun as has => .done ?_
    rw [List.map_cons, ha, has]

/-- Declarators without initializers. -/
theorem parses_declarators {ds : List (Declarator Unit (Expr Unit))}
    (hds : ∀ d ∈ ds, d.isPlain = true) (hne : ds ≠ []) (rest : List Symbol) :
    Parses K (run .declarators) (commas (ds.map Declarator.symbols) ++ mark .semicolon :: rest)
      (fun as => as.map Declarator.bare = ds) (mark .semicolon :: rest) := by
  refine parses_commas (by decide) (by decide) (fun d hd k hk rest m Q hmore => ?_) hne rest
  have hwf := hds d hd
  simp only [Declarator.isPlain, Declarator.isWellFormed, Bool.and_eq_true,
    Option.isNone_iff_eq_none] at hwf
  obtain ⟨⟨⟨-, hdims⟩, -⟩, hinit⟩ := hwf
  obtain ⟨name, dims, init⟩ := d
  subst hinit
  have hrest : ((mark k :: rest).headD Symbol.finish).kind ≠ .leftBracket :=
    closing_ne hk (by decide)
  rw [Declarator.symbols, Declarator.rest, Expr.assigned, List.append_nil]
  refine .call (.expectKind rfl fun n => .bind (parses_dims hdims hrest) ?_)
  exact fun as has => hmore _ (congrArg (fun dims => Declarator.mk name dims none) has)

theorem parses_names {ns : List (Name Unit)} (hne : ns ≠ []) (rest : List Symbol) :
    Parses K (run .names) (commas (ns.map fun n => [name n.text]) ++ mark .semicolon :: rest)
      (fun as => as.map Name.bare = ns) (mark .semicolon :: rest) := by
  refine parses_commas (by decide) (by decide) (fun n _ k _ rest m Q hmore => ?_) hne rest
  exact .call (.expectKind rfl fun _ => hmore _ rfl)

/-! ## Members and parameters -/

/-- Qualifiers and a type with something else behind them. -/
theorem parses_typed {α : Type} {q : Qualifiers Unit (Expr Unit)} (hq : q.isWellFormed = true)
    {t : TypeSpec Unit (Expr Unit)} (ht : t.isWellFormed = true) {rest m : List Symbol}
    (hrest : (rest.headD Symbol.finish).kind ≠ .leftBracket) {Q : α → Prop}
    {f : Qualifiers Nat Tree → TypeSpec Nat Tree → Procedure α}
    (hf : ∀ a b, a.bare = q → b.bare = t → Parses K (f a b) rest Q m) :
    Parses K (do
      let quals ← run (.qualifiers ⟨[], []⟩)
      let type ← typeSpec
      f quals type) (q.symbols ++ (t.symbols ++ rest)) Q m := by
  have hne : ((t.symbols ++ rest).headD Symbol.finish).kind ∉ [Kind.layout, .qualifier] := by
    simp [TypeSpec.symbols]
  refine .bind (parses_qualifiers hq hne) fun a ha => ?_
  exact .bind (parses_typeSpec ht hrest) fun b hb => hf a b ha hb

theorem parses_member {m : Member Unit (Expr Unit)} (hm : m.isWellFormed = true)
    {rest : List Symbol} (hrest : (rest.headD Symbol.finish).kind ≠ .semicolon) :
    Parses K Grammar.member (m.symbols ++ rest) (fun a => a.bare = m) rest := by
  simp only [Member.isWellFormed, Bool.and_eq_true, List.all_eq_true, Bool.not_eq_true',
    List.isEmpty_eq_false_iff] at hm
  obtain ⟨⟨⟨hq, ht⟩, hne⟩, hds⟩ := hm
  have hname := fun rest => (Declarator.starts hne).head_ne rest (k := .leftBracket) (by decide)
  simp only [Member.symbols, List.append_assoc, List.cons_append, List.nil_append]
  refine .position fun first => parses_typed hq ht (hname _) fun a b ha hb => ?_
  refine .bind (parses_declarators hds hne rest) fun ds hds => ?_
  refine .statementEnd hrest (.extentFrom fun X => .done ?_)
  change Member.mk ⟨(), ()⟩ a.bare b.bare (ds.map Declarator.bare) = m
  rw [ha, hb, hds]

theorem parses_members {ms : List (Member Unit (Expr Unit))}
    (hms : ∀ m ∈ ms, m.isWellFormed = true) (rest : List Symbol) :
    Parses K (run .members) (ms.flatMap Member.symbols ++ mark .rightBrace :: rest)
      (fun as => as.map Member.bare = ms) (mark .rightBrace :: rest) := by
  induction ms with
  | nil => exact .call (.next (.done rfl))
  | cons m more ih =>
    obtain ⟨hm, hmore⟩ := List.forall_mem_cons.1 hms
    have hstarts := TypeSpec.starts m.qualifiers m.type
      (commas (m.declarators.map Declarator.symbols) ++ [mark .semicolon])
    -- Semicolons behind a member would be skipped with its own one.
    have hrest : ((more.flatMap Member.symbols ++ mark .rightBrace :: rest).headD
        Symbol.finish).kind ≠ .semicolon := by
      cases more with
      | nil => exact Kind.noConfusion
      | cons m' more =>
        rw [List.flatMap_cons, List.append_assoc]
        exact (TypeSpec.starts m'.qualifiers m'.type _).head_ne _ (by decide)
    rw [List.flatMap_cons, List.append_assoc]
    refine .call (.next ?_)
    split
    · next h => exact absurd h (hstarts.head_ne _ (by decide))
    · next h => exact absurd h (hstarts.head_ne _ (by decide))
    · refine .bind (parses_member hm hrest) fun a ha => .bind (ih hmore) fun as has => .done ?_
      rw [List.map_cons, ha, has]

/-- Members in braces, the instances behind them, and the semicolon. -/
theorem parses_listing {α : Type} {ms : List (Member Unit (Expr Unit))}
    (hms : ∀ m ∈ ms, m.isWellFormed = true) {ds : List (Declarator Unit (Expr Unit))}
    (hds : ∀ d ∈ ds, d.isPlain = true) {rest m : List Symbol}
    (hrest : (rest.headD Symbol.finish).kind ≠ .semicolon) {Q : α → Prop}
    {f : List (Member Nat Tree) → List (Declarator Nat Tree) → Procedure α}
    (hf : ∀ a b, a.map Member.bare = ms → b.map Declarator.bare = ds → Parses K (f a b) rest Q m) :
    Parses K (do
      let ms ← memberList
      let ds ← instances
      statementEnd
      f ms ds) (Member.listing ms ds ++ rest) Q m := by
  have hmembers : ∀ rest, Parses K memberList (braces (ms.flatMap Member.symbols) ++ rest)
      (fun a => a.map Member.bare = ms) rest := by
    intro rest
    rw [braces_append]
    refine .expectKind rfl fun _ => .bind (parses_members hms rest) fun a ha => ?_
    exact .expectKind rfl fun _ => .done ha
  -- Without instances there is a semicolon, and no name, behind the brace.
  have hinstances : Parses K instances
      (commas (ds.map Declarator.symbols) ++ mark .semicolon :: rest)
      (fun b => b.map Declarator.bare = ds) (mark .semicolon :: rest) := by
    cases ds with
    | nil => exact .next (.no Bool.false_ne_true (.done rfl))
    | cons d ds => exact .next (.yes rfl (parses_declarators hds (List.cons_ne_nil _ _) rest))
  simp only [Member.listing, List.append_assoc, List.cons_append, List.nil_append]
  refine .bind (hmembers _) fun a ha => .bind hinstances fun b hb => ?_
  exact .statementEnd hrest (hf a b ha hb)

theorem parses_param {p : Param Unit (Expr Unit)} (hp : p.isWellFormed = true) {k : Kind}
    (hk : k ∈ closingKinds) (rest : List Symbol) :
    Parses K param (p.symbols ++ mark k :: rest) (fun a => a.bare = p) (mark k :: rest) := by
  simp only [Param.isWellFormed, Bool.and_eq_true] at hp
  obtain ⟨⟨hq, ht⟩, hname⟩ := hp
  have hrest : ((mark k :: rest).headD Symbol.finish).kind ≠ .leftBracket :=
    closing_ne hk (by decide)
  obtain ⟨q, t, name, dims⟩ := p
  simp only [Param.symbols, List.append_assoc]
  cases name with
  | none =>
    obtain rfl : dims = [] := List.isEmpty_iff.1 hname
    refine parses_typed hq ht hrest fun a b ha hb => .next (.no ?_ (.done ?_))
    · exact closing_ne hk (by decide)
    · change Param.mk a.bare b.bare none [] = _
      rw [ha, hb]
  | some n =>
    rw [Bool.and_eq_true] at hname
    refine parses_typed hq ht Kind.noConfusion fun a b ha hb => .next (.yes rfl ?_)
    refine .take fun _ => .bind (parses_dims hname.2 hrest) fun ds hds => .done ?_
    change Param.mk a.bare b.bare (some n) (ds.map (Option.map Expr.bare)) = _
    rw [ha, hb, hds]

theorem parses_params {ps : List (Param Unit (Expr Unit))} (hps : ∀ p ∈ ps, p.isWellFormed = true)
    (rest : List Symbol) :
    Parses K (run .params) (commas (ps.map Param.symbols) ++ mark .rightParen :: rest)
      (fun as => as.map Param.bare = ps) (mark .rightParen :: rest) := by
  -- An empty list has a rule of its own, since the closing parenthesis is looked for first.
  by_cases hne : ps = []
  · subst hne
    exact .call (.next (.done rfl))
  refine parses_commas (by decide) (by decide) (fun p hp k hk rest m Q hmore => ?_) hne rest
  have hstarts : Starts typedKinds p.symbols := TypeSpec.starts p.qualifiers p.type _
  refine .call (.next ?_)
  split
  · next h => exact absurd h (hstarts.head_ne _ (by decide))
  · next h => exact absurd h (hstarts.head_ne _ (by decide))
  · next h => exact absurd h (hstarts.head_ne _ (by decide))
  · exact .bind (parses_param (hps p hp) hk rest) hmore

/-! ## Declarations -/

section Declarations

variable {rest : List Symbol}

theorem parses_someName (n : Name Unit) (w : List Symbol) :
    Parses K (some <$> take) (Symbol.name n.text :: w) (fun a => a.map Name.bare = some n) w :=
  .map (.take_done (Q := fun a => a.bare = n) fun _ => rfl) fun _ ha =>
    congrArg some ha

/-- Qualifiers make a declaration of an item, and what follows them tells which one. -/
theorem parses_item_of_qualifiers {q : Qualifiers Unit (Expr Unit)} (hq : q.isWellFormed = true)
    (hne : q.isEmpty = false) {w m : List Symbol} {Q : Item → Prop}
    (hw : (w.headD Symbol.finish).kind ∉ [Kind.layout, .qualifier])
    (h : ∀ (first : Nat) (quals : Qualifiers Nat Tree), quals.bare = q → Parses K (do
      match (← next).kind with
      | .struct => struct first quals
      | .semicolon =>
        statementEnd
        return .qualifiers (← extentFrom first) quals []
      | .identifier =>
        match (← second).kind with
        | .leftBrace => interface first quals
        | .semicolon | .comma =>
          let ns ← run .names
          statementEnd
          return .qualifiers (← extentFrom first) quals ns
        | _ => typed first quals
      | _ => .reject (← position) [.kind .identifier, .kind .struct, .kind .semicolon]) w Q m) :
    Parses K (run .item) (q.symbols ++ w) Q m := by
  have hqualified : Parses K qualified (q.symbols ++ w) Q m :=
    .position fun first => .bind (parses_qualifiers hq hw) fun quals hquals => h first quals hquals
  -- There is a first qualifier, by which the rule for items tells the declaration.
  obtain ⟨x, more, hx, hkind⟩ := (Qualifiers.starts hne).append w
  rw [hx] at hqualified ⊢
  refine .call (.position fun _ => .next ?_)
  simp only [List.mem_cons, List.not_mem_nil, or_false] at hkind
  rcases hkind with hk | hk <;> simp only [List.headD_cons, hk] <;> exact hqualified

theorem parses_struct {x : Extent Unit} {q : Qualifiers Unit (Expr Unit)}
    {name : Option (Name Unit)} {ms : List (Member Unit (Expr Unit))}
    {ds : List (Declarator Unit (Expr Unit))}
    (h : (Node.struct x q name ms ds).isWellFormed = true)
    (hrest : (rest.headD Symbol.finish).kind ≠ .semicolon) :
    Parses K (run .item) ((Node.struct x q name ms ds).symbols ++ rest)
      (fun n => n.bare = .struct x q name ms ds) rest := by
  simp only [Node.isWellFormed, Bool.and_eq_true, List.all_eq_true] at h
  obtain ⟨⟨⟨hq, -⟩, hms⟩, hds⟩ := h
  have hstruct : ∀ (first : Nat) (quals : Qualifiers Nat Tree), quals.bare = q →
      Parses K (struct first quals)
        (mark .struct :: (name.toList.map (fun n => Symbol.name n.text) ++
          (Member.listing ms ds ++ rest)))
        (fun n => n.bare = .struct x q name ms ds) rest := by
    intro first quals hquals
    refine .take fun _ => .next ?_
    have hmembers : ∀ n : Option (Name Nat), n.map Name.bare = name → Parses K (do
        let ms ← memberList
        let ds ← instances
        statementEnd
        return Node.struct (← extentFrom first) quals n ms ds) (Member.listing ms ds ++ rest)
        (fun n => n.bare = .struct x q name ms ds) rest := by
      refine fun n hn => parses_listing hms hds hrest fun a b ha hb => .extentFrom fun X => .done ?_
      change Node.struct ⟨(), ()⟩ quals.bare (n.map Name.bare) (a.map Member.bare)
        (b.map Declarator.bare) = _
      rw [hquals, hn, ha, hb]
    cases name with
    | none => exact .no Kind.noConfusion (hmembers none rfl)
    | some name => exact .yes rfl (.bind (parses_someName name _) hmembers)
  simp only [Node.symbols, List.append_assoc, List.cons_append]
  cases hempty : q.isEmpty with
  | true =>
    -- The keyword comes first.
    rw [Qualifiers.eq_of_isEmpty hempty] at hstruct ⊢
    exact .call (.position fun first => .next (hstruct first ⟨[], []⟩ rfl))
  | false =>
    refine parses_item_of_qualifiers hq hempty (by simp) fun first quals hquals => .next ?_
    exact hstruct first quals hquals

theorem parses_interface {x : Extent Unit} {q : Qualifiers Unit (Expr Unit)} {name : Name Unit}
    {ms : List (Member Unit (Expr Unit))} {ds : List (Declarator Unit (Expr Unit))}
    (h : (Node.interface x q name ms ds).isWellFormed = true)
    (hrest : (rest.headD Symbol.finish).kind ≠ .semicolon) :
    Parses K (run .item) ((Node.interface x q name ms ds).symbols ++ rest)
      (fun n => n.bare = .interface x q name ms ds) rest := by
  simp only [Node.isWellFormed, Bool.and_eq_true, List.all_eq_true, Bool.not_eq_true'] at h
  obtain ⟨⟨⟨⟨hne, hq⟩, -⟩, hms⟩, hds⟩ := h
  simp only [Node.symbols, List.append_assoc, List.cons_append]
  refine parses_item_of_qualifiers hq hne (by simp) fun first quals hquals => .next (.second ?_)
  refine .take fun n => ?_
  refine parses_listing hms hds hrest fun a b ha hb => .extentFrom fun X => .done ?_
  change Node.interface ⟨(), ()⟩ quals.bare name (a.map Member.bare) (b.map Declarator.bare) = _
  rw [hquals, ha, hb]

/-- Qualifiers alone, or with the names that they are for. -/
theorem parses_qualifiersFor {x : Extent Unit} {q : Qualifiers Unit (Expr Unit)}
    {ns : List (Name Unit)} (h : (Node.qualifiers x q ns).isWellFormed = true)
    (hrest : (rest.headD Symbol.finish).kind ≠ .semicolon) :
    Parses K (run .item) ((Node.qualifiers x q ns).symbols ++ rest)
      (fun n => n.bare = .qualifiers x q ns) rest := by
  simp only [Node.isWellFormed, Bool.and_eq_true, Bool.not_eq_true'] at h
  obtain ⟨⟨hne, hq⟩, -⟩ := h
  simp only [Node.symbols, List.append_assoc, List.cons_append, List.nil_append]
  cases ns with
  | nil =>
    refine parses_item_of_qualifiers hq hne (by simp [commas]) fun first quals hquals => .next ?_
    refine .statementEnd hrest (.extentFrom fun X => .done ?_)
    change Node.qualifiers ⟨(), ()⟩ quals.bare [] = _
    rw [hquals]
  | cons n ns =>
    refine parses_item_of_qualifiers hq hne (by simp [commas]) fun first quals hquals => .next ?_
    have hnames : Parses K (do
        let ns ← run .names
        statementEnd
        return Node.qualifiers (← extentFrom first) quals ns)
        (commas ((n :: ns).map fun n => [Symbol.name n.text]) ++ mark .semicolon :: rest)
        (fun a => a.bare = .qualifiers x q (n :: ns)) rest := by
      refine .bind (parses_names (List.cons_ne_nil _ _) rest) fun as has => ?_
      refine .statementEnd hrest (.extentFrom fun X => .done ?_)
      change Node.qualifiers ⟨(), ()⟩ quals.bare (as.map Name.bare) = _
      rw [hquals, has]
    -- Behind the first name there is a comma or the semicolon.
    cases ns <;> exact .second hnames

theorem parses_precision {x : Extent Unit} {word : Name Unit} {t : TypeSpec Unit (Expr Unit)}
    (h : (Node.precision x word t).isWellFormed = true)
    (hrest : (rest.headD Symbol.finish).kind ≠ .semicolon) :
    Parses K (run .item) ((Node.precision x word t).symbols ++ rest)
      (fun n => n.bare = .precision x word t) rest := by
  simp only [Node.isWellFormed, Bool.and_eq_true] at h
  simp only [Node.symbols, List.append_assoc, List.cons_append, List.nil_append]
  refine .call (.position fun _ => .next (.take fun first => .next ?_))
  refine .expectKind rfl fun n => .yes rfl ?_
  refine .bind (parses_typeSpec h.2 Kind.noConfusion) fun a ha => ?_
  refine .statementEnd hrest (.extentFrom fun X => .done ?_)
  change Node.precision ⟨(), ()⟩ word a.bare = _
  rw [ha]

/-- The lookahead passes dimensions. -/
theorem nameAfterDims_dims {ds : List (Option (Expr Unit))} (h : Expr.areDims ds = true)
    (rest : List Symbol) :
    nameAfterDims 0 (Expr.dims ds ++ rest) = nameAfterDims 0 rest := by
  induction ds with
  | nil => rfl
  | cons d ds ih =>
    simp only [Expr.areDims, List.all_cons, Bool.and_eq_true] at h
    have hbalanced : Balanced (d.elim [] Expr.words) := by
      cases d with
      | none => exact .nil
      | some e => exact (e.phrase_words h.1).balanced
    have hopen : ∀ more, nameAfterDims 0 (mark .leftBracket :: more) = nameAfterDims 1 more :=
      fun _ => rfl
    rw [Expr.dims, List.flatMap_cons, List.append_assoc, brackets_append, hopen, hbalanced]
    exact ih h.2

theorem startsDeclaration_type {t : TypeSpec Unit (Expr Unit)} (ht : t.isWellFormed = true)
    (name : Text) (w : List Symbol) :
    startsDeclaration (t.symbols ++ Symbol.name name :: w) = true := by
  rw [TypeSpec.isWellFormed, Bool.and_eq_true] at ht
  exact nameAfterDims_dims ht.2 (Symbol.name name :: w)

/-- A type and a name make a declaration of an item, with or without qualifiers. -/
theorem parses_item_of_type {q : Qualifiers Unit (Expr Unit)} (hq : q.isWellFormed = true)
    {t : TypeSpec Unit (Expr Unit)} (ht : t.isWellFormed = true) {name : Text}
    {w m : List Symbol} {Q : Item → Prop}
    (h : ∀ (first : Nat) (quals : Qualifiers Nat Tree) (type : TypeSpec Nat Tree) (n : Nat),
      quals.bare = q → type.bare = t → Parses K (do
        if (← next).kind = .leftParen then
          function first quals type ⟨name, n⟩
        else
          let ds ← run (.vars type ⟨name, n⟩)
          statementEnd
          return .vars (← extentFrom first) ⟨quals, type, ds⟩) w Q m) :
    Parses K (run .item) (q.symbols ++ (t.symbols ++ Symbol.name name :: w)) Q m := by
  have htyped : ∀ (first : Nat) (quals : Qualifiers Nat Tree), quals.bare = q →
      Parses K (typed first quals) (t.symbols ++ Symbol.name name :: w) Q m := by
    intro first quals hquals
    refine .bind (parses_typeSpec ht Kind.noConfusion) fun type htype => ?_
    exact .expectKind rfl fun n => h first quals type n hquals htype
  cases hempty : q.isEmpty with
  | true =>
    -- The type comes first, and the lookahead finds the name behind its dimensions.
    rw [Qualifiers.eq_of_isEmpty hempty] at htyped ⊢
    have hahead := startsDeclaration_type ht name w
    exact .call (.position fun first => .next (.ahead (.yes hahead (htyped first ⟨[], []⟩ rfl))))
  | false =>
    have hnext : ((t.symbols ++ Symbol.name name :: w).headD Symbol.finish).kind ∉
        [Kind.layout, .qualifier] := by
      simp [TypeSpec.symbols]
    refine parses_item_of_qualifiers hq hempty hnext fun first quals hquals => .next (.second ?_)
    -- Behind the type's name there is a bracket or the other name, so it is no block.
    have hsecond : ((t.symbols ++ Symbol.name name :: w).tail.headD Symbol.finish).kind ∈
        [Kind.leftBracket, .identifier] := by
      obtain ⟨tname, dims⟩ := t
      cases dims with
      | nil => exact List.mem_cons_of_mem _ List.mem_cons_self
      | cons d dims => exact List.mem_cons_self
    have hread := htyped first quals hquals
    simp only [List.mem_cons, List.not_mem_nil, or_false] at hsecond
    rcases hsecond with hk | hk <;> simp only [hk] <;> exact hread

theorem head_rest_ne (d : Declarator Unit (Expr Unit)) {w : List Symbol}
    (hw : (w.headD Symbol.finish).kind ≠ .leftParen) :
    ((d.rest ++ w).headD Symbol.finish).kind ≠ .leftParen := by
  obtain ⟨name, dims, init⟩ := d
  cases dims with
  | cons _ _ => exact Kind.noConfusion
  | nil =>
    cases init with
    | some _ => exact Kind.noConfusion
    | none => exact hw

theorem parses_variables {x : Extent Unit} {v : Variables Unit (Expr Unit)}
    (h : v.isWellFormed = true) (hrest : (rest.headD Symbol.finish).kind ≠ .semicolon) :
    Parses Missing.IsConversion (run .item) ((Node.vars x v).symbols ++ rest)
      (fun n => n.bare = .vars x v) rest := by
  simp only [Variables.isWellFormed, Bool.and_eq_true, List.all_eq_true, Bool.not_eq_true',
    List.isEmpty_eq_false_iff] at h
  obtain ⟨⟨⟨hq, ht⟩, hne⟩, hds⟩ := h
  obtain ⟨q, t, ds⟩ := v
  obtain ⟨d, ds, rfl⟩ := List.exists_cons_of_ne_nil hne
  simp only [Node.symbols, Variables.symbols, List.map_cons, commas, Declarator.symbols,
    List.flatMap_map, List.append_assoc, List.cons_append, List.nil_append]
  refine parses_item_of_type hq ht fun first quals type n hquals htype => .next (.no ?_ ?_)
  · refine head_rest_ne d ?_
    cases ds <;> exact Kind.noConfusion
  · refine .bind (parses_vars hds type rfl rest) fun as has => ?_
    refine .statementEnd hrest (.extentFrom fun X => .done ?_)
    change Node.vars ⟨(), ()⟩ ⟨quals.bare, type.bare, as.map Declarator.bare⟩ = _
    rw [hquals, htype, has]

/-- A function up to its body, or to the semicolon in place of one. -/
theorem parses_signature {s : Signature Unit (Expr Unit)} (hs : s.isWellFormed = true)
    {w m : List Symbol} {Q : Item → Prop}
    (h : ∀ (first : Nat) (a : Signature Nat Tree), a.bare = s → Parses K (do
      if (← next).kind = .leftBrace then
        let (bodyExtent, body) ← block
        return .function (← extentFrom first) a bodyExtent body
      else
        statementEnd
        return .prototype (← extentFrom first) a) w Q m) :
    Parses K (run .item) (s.symbols ++ w) Q m := by
  simp only [Signature.isWellFormed, Bool.and_eq_true, List.all_eq_true] at hs
  obtain ⟨⟨⟨hq, ht⟩, -⟩, hps⟩ := hs
  simp only [Signature.symbols, List.append_assoc, List.cons_append, parens_append]
  refine parses_item_of_type hq ht fun first quals type n hquals htype => .next (.yes rfl ?_)
  refine .take fun _ => .bind (parses_params hps w) fun ps hps => ?_
  refine .orMissing (h first _ ?_)
  change Signature.mk quals.bare type.bare s.name (ps.map Param.bare) = s
  rw [hquals, htype, hps]

theorem parses_prototype {x : Extent Unit} {s : Signature Unit (Expr Unit)}
    (h : s.isWellFormed = true) (hrest : (rest.headD Symbol.finish).kind ≠ .semicolon) :
    Parses K (run .item) ((Node.prototype x s).symbols ++ rest)
      (fun n => n.bare = .prototype x s) rest := by
  simp only [Node.symbols, List.append_assoc, List.cons_append, List.nil_append]
  refine parses_signature h fun first a ha => .next (.no Kind.noConfusion ?_)
  refine .statementEnd hrest (.extentFrom fun X => .done ?_)
  exact congrArg (Node.prototype ⟨(), ()⟩) ha

end Declarations

end ShaderRepair
