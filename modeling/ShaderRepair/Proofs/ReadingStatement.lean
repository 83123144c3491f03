import ShaderRepair.Proofs.ReadingDeclaration

/-!
# Reading printed items

Printed declarations and statements are read back as they were. What follows an item matters in two
ways only: a semicolon would become a part of it, and so would an else if the item ends open. This
file contains:
- `Node.Readable`, an item that is read back, as a statement and among others;
- one lemma for every form of statement;
- `Node.readable`, that every well-formed item is readable;
- `Document.parse_listing`, the text of well-formed items.
-/

namespace ShaderRepair

open Grammar Grammar.Procedure ShaderRepair.Symbol
open Text (ascii)

/-! ## Readable items -/

/-- The symbols may follow the item. -/
structure Node.Precedes (n : Node Unit (Expr Unit)) (rest : List Symbol) : Prop where
  semicolon : (rest.headD Symbol.finish).kind ≠ .semicolon
  branch : n.endsOpen = true → (rest.headD Symbol.finish).kind ≠ .else

/-- The item is read back by a rule, whatever may follow it. -/
def Node.ReadBy (n : Node Unit (Expr Unit)) (p : Procedure Item) : Prop :=
  ∀ ⦃rest : List Symbol⦄, n.Precedes rest →
    Parses Missing.IsConversion p (n.symbols ++ rest) (fun a => a.bare = n) rest

/-- The item is read back where statements are read and where items are. -/
structure Node.Readable (n : Node Unit (Expr Unit)) : Prop where
  statement : n.isStatement = true → n.ReadBy (run .statement)
  item : n.isEmpty = false → n.ReadBy (run .item)

/-- The item is read back among others. -/
structure Node.Listed (n : Node Unit (Expr Unit)) : Prop where
  item : n.ReadBy (run .item)
  starts : Starts itemKinds n.symbols

/-- The kinds that statements begin with, other than expressions. -/
def statementKinds : List Kind :=
  [.leftBrace, .if, .switch, .for, .while, .do, .break, .continue, .return, .discard]

/-- A statement that is no expression is read among items in the same way. -/
theorem Node.Readable.of_statement {n : Node Unit (Expr Unit)}
    (hn : Starts statementKinds n.symbols) (h : n.ReadBy (run .statement)) : n.Readable := by
  refine ⟨fun _ => h, fun _ rest hrest => ?_⟩
  have hread := h hrest
  obtain ⟨x, more, hx, hkind⟩ := hn.append rest
  rw [hx] at hread ⊢
  refine .call (.position fun _ => .next ?_)
  simp only [statementKinds, List.mem_cons, List.not_mem_nil, or_false] at hkind
  rcases hkind with hk | hk | hk | hk | hk | hk | hk | hk | hk | hk <;>
    simp only [List.headD_cons, hk] <;> exact hread

/-- A declaration is read among items only. -/
theorem Node.Readable.of_declaration {n : Node Unit (Expr Unit)} (hn : n.isStatement = false)
    (h : n.ReadBy (run .item)) : n.Readable :=
  ⟨fun hs => absurd (hn.symm.trans hs) Bool.false_ne_true, fun _ => h⟩

/-! ## Items in a row -/

/-- What begins with neither may follow any item. -/
theorem Node.precedes (n : Node Unit (Expr Unit)) {rest : List Symbol}
    (h : (rest.headD Symbol.finish).kind ∉ [Kind.semicolon, .else]) : n.Precedes rest := by
  simp only [List.mem_cons, List.not_mem_nil, or_false, not_or] at h
  exact ⟨h.1, fun _ => h.2⟩

/-- No item begins with what ends a run of items. -/
theorem kind_of_ends {stop : Stop} {x : Symbol} (h : stop.ends x = true) :
    x.kind ∉ [Kind.semicolon, .else] ∧ x.kind ∉ itemKinds := by
  unfold Stop.ends at h
  split at h
  iterate 4
    next hk =>
      rw [hk]
      decide
  cases h

theorem head_symbolsAll {ns : List (Node Unit (Expr Unit))} (h : ∀ n ∈ ns, n.Listed)
    {rest : List Symbol} (hrest : (rest.headD Symbol.finish).kind ∉ [Kind.semicolon, .else]) :
    ((Node.symbolsAll ns ++ rest).headD Symbol.finish).kind ∉ [Kind.semicolon, .else] := by
  cases ns with
  | nil => exact hrest
  | cons n more =>
    obtain ⟨x, w, hx, hkind⟩ := (h n List.mem_cons_self).starts
    have hdisjoint : ∀ k ∈ itemKinds, k ∉ [Kind.semicolon, .else] := by decide
    rw [Node.symbolsAll, hx]
    exact hdisjoint _ hkind

theorem parses_items {ns : List (Node Unit (Expr Unit))} (h : ∀ n ∈ ns, n.Listed) {stop : Stop}
    {rest : List Symbol} (hstop : stop.ends (rest.headD Symbol.finish) = true) :
    Parses Missing.IsConversion (run (.items stop)) (Node.symbolsAll ns ++ rest)
      (fun as => as.map Node.bare = ns) rest := by
  induction ns with
  | nil => exact .call (.next (.yes hstop (.done rfl)))
  | cons n more ih =>
    obtain ⟨hn, hmore⟩ := List.forall_mem_cons.1 h
    -- The items go on, and what is next may follow the item.
    have hgo : ¬stop.ends ((n.symbols ++ (Node.symbolsAll more ++ rest)).headD Symbol.finish) := by
      obtain ⟨x, w, hx, hkind⟩ := hn.starts
      rw [hx]
      exact fun hends => (kind_of_ends hends).2 hkind
    have hnext := n.precedes (head_symbolsAll hmore (kind_of_ends hstop).1)
    rw [Node.symbolsAll, List.append_assoc]
    refine .call (.next (.no hgo (.bind (hn.item hnext) fun a ha => ?_)))
    refine .bind (ih hmore) fun as has => .done ?_
    rw [List.map_cons, ha, has]

theorem parses_block {ns : List (Node Unit (Expr Unit))} (h : ∀ n ∈ ns, n.Listed)
    (rest : List Symbol) :
    Parses Missing.IsConversion block (braces (Node.symbolsAll ns) ++ rest)
      (fun p => p.2.map Node.bare = ns) rest := by
  rw [braces_append]
  refine .expectKind rfl fun _ => .bind (parses_items h rfl) fun as has => ?_
  exact .expectKind rfl fun _ => .extentFrom fun X => .done has

/-! ## Conditions and clauses -/

section Clauses

variable {K : Missing → Prop} {e : Expr Unit} {rest : List Symbol}

theorem parses_condition (h : e.isWellFormed = true) (rest : List Symbol) :
    Parses K condition (parens e.words ++ rest) (fun a => a.bare = e) rest := by
  rw [parens_append]
  refine .orMissing (.bind (Expr.reads h (ends_mark (by decide) rest)) ?_)
  exact fun a ha => .orMissing (.done ha)

theorem parses_forCondition {c : Option (Expr Unit)} (h : c.all Expr.isWellFormed = true)
    (rest : List Symbol) :
    Parses K forCondition (c.elim [] Expr.words ++ mark .semicolon :: rest)
      (fun a => a.map Expr.bare = c) rest := by
  cases c with
  | none => exact .accept rfl (.yes rfl (.done rfl))
  | some e =>
    have hne := (e.phrase_words h).starts.head_ne (mark .semicolon :: rest) (k := .semicolon)
      (by decide)
    refine .passKind hne (.no Bool.false_ne_true ?_)
    refine .bind (Expr.reads h (ends_mark (by decide) rest)) fun a ha => ?_
    exact .orMissing (.done (congrArg some ha))

theorem parses_forUpdate {u : Option (Expr Unit)} (h : u.all Expr.isWellFormed = true)
    (rest : List Symbol) :
    Parses K forUpdate (u.elim [] Expr.words ++ mark .rightParen :: rest)
      (fun a => a.map Expr.bare = u) rest := by
  cases u with
  | none => exact .next (.orMissing (.done rfl))
  | some e =>
    have hstarts := (e.phrase_words h).starts
    refine .next ?_
    split
    · next hk => exact absurd hk (hstarts.head_ne _ (by decide))
    · next hk => exact absurd hk (hstarts.head_ne _ (by decide))
    · refine .bind (Expr.reads h (ends_mark (by decide) rest)) fun a ha => ?_
      exact .orMissing (.done (congrArg some ha))

/-- Loop variables have to look like a declaration, and other expressions do not. -/
theorem parses_forInit {i : ForInit Unit (Expr Unit)} (h : i.isWellFormed = true)
    (rest : List Symbol) :
    Parses Missing.IsConversion forInit (i.symbols ++ mark .semicolon :: rest)
      (fun a => a.bare = i) rest := by
  refine .position fun first => .next (.ahead ?_)
  cases i with
  | none => exact .yes rfl (.take fun _ => .done rfl)
  | vars x v =>
    simp only [ForInit.isWellFormed, Variables.isWellFormed, Bool.and_eq_true, List.all_eq_true,
      Bool.not_eq_true', List.isEmpty_eq_false_iff, List.isEmpty_iff] at h
    obtain ⟨hlayout, ⟨⟨hq, ht⟩, hne⟩, hds⟩ := h
    obtain ⟨q, t, ds⟩ := v
    obtain ⟨d, ds, rfl⟩ := List.exists_cons_of_ne_nil hne
    simp only [ForInit.symbols, Variables.symbols, List.map_cons, commas, Declarator.symbols,
      List.flatMap_map, List.append_assoc, List.cons_append]
    have hstarts := TypeSpec.starts q t (Symbol.name d.name.text :: (d.rest ++
      (ds.flatMap (fun d => mark .comma :: d.symbols) ++ mark .semicolon :: rest)))
    -- A keyword comes first, or else a type and a name do. A layout would be neither.
    have hdeclares : ∀ w, (((q.symbols ++ (t.symbols ++ Symbol.name d.name.text :: w)).headD
        Symbol.finish).kind = .qualifier || startsDeclaration
          (q.symbols ++ (t.symbols ++ Symbol.name d.name.text :: w))) = true := by
      obtain ⟨layout, words⟩ := q
      obtain rfl : layout = [] := hlayout
      intro w
      cases words with
      | nil => exact Bool.or_eq_true_iff.2 (.inr (startsDeclaration_type ht d.name.text w))
      | cons q words => exact Bool.or_eq_true_iff.2 (.inl rfl)
    refine .no (hstarts.ne (by decide)) (.yes (hdeclares _) ?_)
    refine parses_typed hq ht Kind.noConfusion fun quals type hquals htype => ?_
    refine .expectKind rfl fun n => ?_
    refine .bind (parses_vars hds type rfl rest) fun as has => .extentFrom fun X => ?_
    refine .orMissing (.done ?_)
    change ForInit.vars ⟨(), ()⟩ ⟨quals.bare, type.bare, as.map Declarator.bare⟩ = _
    rw [hquals, htype, has]
  | expression x e =>
    have hphrase := e.phrase_words h
    have hnot : ¬(((e.words ++ mark .semicolon :: rest).headD Symbol.finish).kind =
        .qualifier || startsDeclaration (e.words ++ mark .semicolon :: rest)) = true := by
      rw [hphrase.tidy.startsDeclaration_eq_false, Bool.or_false, decide_eq_true_eq]
      exact hphrase.starts.head_ne _ (by decide)
    refine .no (hphrase.starts.head_ne _ (by decide)) (.no hnot ?_)
    refine .bind (Expr.reads h (ends_mark (by decide) rest)) fun a ha => .extentFrom fun X => ?_
    exact .orMissing (.done (congrArg (ForInit.expression ⟨(), ()⟩) ha))

end Clauses

/-! ## Statements -/

section Statements

variable {x : Extent Unit} {c e : Expr Unit} {n yes no body : Node Unit (Expr Unit)}
  {ns : List (Node Unit (Expr Unit))} {value u : Option (Expr Unit)}

namespace Node

theorem readable_block (h : ∀ n ∈ ns, n.Listed) : (Node.block x ns).Readable := by
  refine .of_statement (.cons (by decide) _) fun rest _ => .call (.position fun _ => .next ?_)
  refine .bind (parses_block h rest) fun p hp => .done ?_
  change Node.block ⟨(), ()⟩ (Node.bareAll p.2) = _
  rw [Node.bareAll_eq_map, hp]

theorem readable_function {s : Signature Unit (Expr Unit)} {y : Extent Unit}
    (hs : s.isWellFormed = true) (h : ∀ n ∈ ns, n.Listed) :
    (Node.function x s y ns).Readable := by
  refine .of_declaration rfl fun rest _ => ?_
  rw [Node.symbols, List.append_assoc]
  refine parses_signature hs fun first a ha => .next (.yes rfl ?_)
  refine .bind (parses_block h rest) fun p hp => .extentFrom fun X => .done ?_
  change Node.function ⟨(), ()⟩ a.bare ⟨(), ()⟩ (Node.bareAll p.2) = _
  rw [Node.bareAll_eq_map, ha, hp]

theorem readable_expression (h : e.isWellFormed = true) : (Node.expression x e).Readable := by
  have hphrase := e.phrase_words h
  refine ⟨fun _ rest hrest => ?_, fun _ rest hrest => ?_⟩
  · rw [Node.symbols, List.append_assoc]
    exact parses_statement_of_phrase hphrase (Expr.reads h) hrest.semicolon
  · rw [Node.symbols, List.append_assoc]
    exact parses_item_of_phrase hphrase (Expr.reads h) hrest.semicolon

theorem readable_empty : (Node.empty x).Readable :=
  ⟨fun _ _ _ => .call (.position fun _ => .next (.take fun _ =>
    .extentFrom fun _ => .done rfl)), fun h => absurd h Bool.false_ne_true.symm⟩

theorem readable_ifThen (hc : c.isWellFormed = true) (hyes : yes.ReadBy (run .statement)) :
    (Node.ifThen x c yes).Readable := by
  refine .of_statement (.cons (by decide) _) fun rest hrest => .call (.position fun _ => .next ?_)
  rw [Node.symbols, List.cons_append, List.append_assoc]
  refine .take fun first => .bind (parses_condition hc _) fun a ha => ?_
  -- An else would be taken, but none may follow an item that ends open.
  refine .bind (hyes ⟨hrest.semicolon, fun _ => hrest.branch rfl⟩) fun b hb => ?_
  refine .passKind (hrest.branch rfl) (.no Bool.false_ne_true (.extentFrom fun X => .done ?_))
  change Node.ifThen ⟨(), ()⟩ a.bare b.bare = _
  rw [ha, hb]

theorem readable_ifElse (hc : c.isWellFormed = true) (hyes : yes.ReadBy (run .statement))
    (hclosed : yes.endsOpen = false) (hno : no.ReadBy (run .statement)) :
    (Node.ifElse x c yes no).Readable := by
  refine .of_statement (.cons (by decide) _) fun rest hrest => .call (.position fun _ => .next ?_)
  simp only [Node.symbols, List.cons_append, List.append_assoc]
  refine .take fun first => .bind (parses_condition hc _) fun a ha => ?_
  -- The else comes right behind the first branch, which is why that must not end open.
  refine .bind (hyes ⟨Kind.noConfusion, fun hopen => ?_⟩) fun b hb => ?_
  · exact absurd (hclosed.symm.trans hopen) Bool.false_ne_true
  refine .accept rfl (.yes rfl ?_)
  refine .bind (hno ⟨hrest.semicolon, hrest.branch⟩) fun d hd => .extentFrom fun X => .done ?_
  change Node.ifElse ⟨(), ()⟩ a.bare b.bare d.bare = _
  rw [ha, hb, hd]

theorem readable_whileLoop (hc : c.isWellFormed = true) (hbody : body.ReadBy (run .statement)) :
    (Node.whileLoop x c body).Readable := by
  refine .of_statement (.cons (by decide) _) fun rest hrest => .call (.position fun _ => .next ?_)
  rw [Node.symbols, List.cons_append, List.append_assoc]
  refine .take fun first => .bind (parses_condition hc _) fun a ha => ?_
  refine .bind (hbody ⟨hrest.semicolon, hrest.branch⟩) fun b hb => .extentFrom fun X => .done ?_
  change Node.whileLoop ⟨(), ()⟩ a.bare b.bare = _
  rw [ha, hb]

theorem readable_doWhile (hbody : body.ReadBy (run .statement)) (hc : c.isWellFormed = true) :
    (Node.doWhile x body c).Readable := by
  refine .of_statement (.cons (by decide) _) fun rest hrest => .call (.position fun _ => .next ?_)
  simp only [Node.symbols, List.cons_append, List.append_assoc, List.nil_append]
  refine .take fun first => .bind (hbody (body.precedes (by simp))) fun b hb => ?_
  refine .expectKind rfl fun _ => .bind (parses_condition hc _) fun a ha => ?_
  refine .statementEnd hrest.semicolon (.extentFrom fun X => .done ?_)
  change Node.doWhile ⟨(), ()⟩ b.bare a.bare = _
  rw [ha, hb]

theorem readable_forLoop {i : ForInit Unit (Expr Unit)} (hi : i.isWellFormed = true)
    (hc : value.all Expr.isWellFormed = true) (hu : u.all Expr.isWellFormed = true)
    (hbody : body.ReadBy (run .statement)) : (Node.forLoop x i value u body).Readable := by
  refine .of_statement (.cons (by decide) _) fun rest hrest => .call (.position fun _ => .next ?_)
  simp only [Node.symbols, List.cons_append, List.append_assoc, parens_append]
  refine .take fun first => .orMissing ?_
  refine .bind (parses_forInit hi _) fun a ha => .bind (parses_forCondition hc _) fun b hb => ?_
  refine .bind (parses_forUpdate hu _) fun d hd => ?_
  refine .bind (hbody ⟨hrest.semicolon, hrest.branch⟩) fun f hf => .extentFrom fun X => .done ?_
  change Node.forLoop ⟨(), ()⟩ a.bare (b.map Expr.bare) (d.map Expr.bare) f.bare = _
  rw [ha, hb, hd, hf]

theorem readable_return (hvalue : value.all Expr.isWellFormed = true) :
    (Node.return x value).Readable := by
  refine .of_statement (.cons (by decide) _) fun rest hrest => .call (.position fun _ => .next ?_)
  simp only [Node.symbols, List.cons_append, List.append_assoc, List.nil_append]
  refine .take fun first => .next ?_
  cases value with
  | none => exact .statementEnd hrest.semicolon (.extentFrom fun X => .done rfl)
  | some e =>
    have hphrase := e.phrase_words hvalue
    have hstarts := hphrase.starts
    -- A line break would have ended the statement.
    have hjoined : ((e.words ++ mark .semicolon :: rest).headD Symbol.finish).broken = false := by
      obtain ⟨x, more, hx, -⟩ := hphrase.exists_head
      rw [hx]
      exact (hphrase.spelled x (hx ▸ List.mem_cons_self)).joined
    split
    · next hk => exact absurd hk (hstarts.head_ne _ (by decide))
    · next hk => exact absurd hk (hstarts.head_ne _ (by decide))
    · next hk => exact absurd hk (hstarts.head_ne _ (by decide))
    · refine .no (ne_true_of_eq_false hjoined) ?_
      refine .bind ((Expr.reads hvalue).some (ends_mark (by decide) rest)) fun a ha => ?_
      refine .statementEnd hrest.semicolon (.extentFrom fun X => .done ?_)
      exact congrArg (Node.return ⟨(), ()⟩) ha

/-- A statement of one word. -/
theorem parses_word (k : Kind) (node : Extent Nat → Item)
    (hnode : ∀ X, (node X).bare = n) {rest : List Symbol}
    (hrest : (rest.headD Symbol.finish).kind ≠ .semicolon) :
    Parses Missing.IsConversion (wordStatement node) (mark k :: mark .semicolon :: rest)
      (fun a => a.bare = n) rest :=
  .take fun _ => .statementEnd hrest (.extentFrom fun X => .done (hnode X))

theorem readable_break : (Node.break x).Readable :=
  .of_statement (.cons (by decide) _) fun _ hrest => .call (.position fun _ => .next
    (parses_word .break .break (fun _ => rfl) hrest.semicolon))

theorem readable_continue : (Node.continue x).Readable :=
  .of_statement (.cons (by decide) _) fun _ hrest => .call (.position fun _ => .next
    (parses_word .continue .continue (fun _ => rfl) hrest.semicolon))

theorem readable_discard : (Node.discard x).Readable :=
  .of_statement (.cons (by decide) _) fun _ hrest => .call (.position fun _ => .next
    (parses_word .discard .discard (fun _ => rfl) hrest.semicolon))

end Node

/-- The label is well-formed, and the items behind it are read back. -/
def Case.Readable : Case Unit (Expr Unit) → Prop
  | .mk _ label body => label.all Expr.isWellFormed = true ∧ ∀ n ∈ body, n.Listed

theorem parses_cases {cs : List (Case Unit (Expr Unit))} (h : ∀ c ∈ cs, c.Readable)
    (rest : List Symbol) :
    Parses Missing.IsConversion (run .cases) (Case.symbolsAll cs ++ mark .rightBrace :: rest)
      (fun as => Case.bareAll as = cs) (mark .rightBrace :: rest) := by
  induction cs with
  | nil => exact .call (.next (.done rfl))
  | cons c more ih =>
    obtain ⟨hc, hmore⟩ := List.forall_mem_cons.1 h
    obtain ⟨y, label, ns⟩ := c
    -- The next label or the closing brace ends the items.
    have hends : Stop.label.ends ((Case.symbolsAll more ++ mark .rightBrace :: rest).headD
        Symbol.finish) = true := by
      cases more with
      | nil => rfl
      | cons c more =>
        obtain ⟨_, label, _⟩ := c
        cases label <;> rfl
    have hbody := parses_items hc.2 hends
    have hlist : ∀ {as : List Item} {bs : List (Case Nat Tree)}, as.map Node.bare = ns →
        Case.bareAll bs = more → ∀ X l, l.map Expr.bare = label →
          Case.bareAll (Case.mk X l as :: bs) = .mk y label ns :: more := by
      intro as bs has hbs X l hl
      change Case.mk ⟨(), ()⟩ (l.map Expr.bare) (Node.bareAll as) :: Case.bareAll bs = _
      rw [Node.bareAll_eq_map, has, hbs, hl]
    rw [Case.symbolsAll, List.append_assoc]
    cases label with
    | none =>
      refine .call (.next (.expect rfl fun word => .no Kind.noConfusion ?_))
      refine .orMissing (.bind hbody fun as has => .extentFrom fun X => ?_)
      exact .bind (ih hmore) fun bs hbs => .done (hlist has hbs _ _ rfl)
    | some e =>
      simp only [Case.symbols, List.cons_append, List.append_assoc]
      refine .call (.next (.expect rfl fun word => .yes rfl ?_))
      refine .bind ((Expr.reads hc.1).some (ends_mark (by decide) _)) fun l hl => ?_
      refine .orMissing (.bind hbody fun as has => .extentFrom fun X => ?_)
      exact .bind (ih hmore) fun bs hbs => .done (hlist has hbs _ _ hl)

theorem Node.readable_switch {cs : List (Case Unit (Expr Unit))} (he : e.isWellFormed = true)
    (h : ∀ c ∈ cs, c.Readable) : (Node.switch x e cs).Readable := by
  refine .of_statement (.cons (by decide) _) fun rest _ => .call (.position fun _ => .next ?_)
  simp only [Node.symbols, List.cons_append, List.append_assoc, braces_append]
  refine .take fun first => .bind (parses_condition he _) fun a ha => ?_
  refine .expectKind rfl fun _ => .bind (parses_cases h rest) fun bs hbs => ?_
  refine .expectKind rfl fun _ => .extentFrom fun X => .done ?_
  change Node.switch ⟨(), ()⟩ a.bare (Case.bareAll bs) = _
  rw [ha, hbs]

end Statements

/-! ## Well-formed items -/

/-- Where items are listed there are no semicolons of their own. -/
theorem Node.Readable.listed {n : Node Unit (Expr Unit)} (h : n.Readable)
    (hn : n.isWellFormed = true) (hne : n.isEmpty = false) : n.Listed :=
  ⟨h.item hne, Node.starts hn hne⟩

mutual

/-- Well-formed items are read back. -/
theorem Node.readable (n : Node Unit (Expr Unit)) (h : n.isWellFormed = true) : n.Readable := by
  match n, h with
  | .struct .., h => exact .of_declaration rfl fun _ hrest => parses_struct h hrest.semicolon
  | .interface .., h => exact .of_declaration rfl fun _ hrest => parses_interface h hrest.semicolon
  | .vars .., h => exact .of_declaration rfl fun _ hrest => parses_variables h hrest.semicolon
  | .prototype .., h => exact .of_declaration rfl fun _ hrest => parses_prototype h hrest.semicolon
  | .function _ s _ body, h =>
    rw [Node.isWellFormed, Bool.and_eq_true] at h
    exact Node.readable_function h.1 (Node.listed_all body h.2)
  | .precision .., h => exact .of_declaration rfl fun _ hrest => parses_precision h hrest.semicolon
  | .qualifiers .., h =>
    exact .of_declaration rfl fun _ hrest => parses_qualifiersFor h hrest.semicolon
  | .expression _ e, h => exact Node.readable_expression h
  | .empty _, _ => exact Node.readable_empty
  | .block _ body, h => exact Node.readable_block (Node.listed_all body h)
  | .ifThen _ c yes, h =>
    simp only [Node.isWellFormed, Bool.and_eq_true] at h
    exact Node.readable_ifThen h.1.1 ((Node.readable yes h.2).statement h.1.2)
  | .ifElse _ c yes no, h =>
    simp only [Node.isWellFormed, Bool.and_eq_true, Bool.not_eq_true'] at h
    obtain ⟨⟨⟨⟨⟨hc, hyes⟩, hclosed⟩, hyes'⟩, hno⟩, hno'⟩ := h
    -- By `hclosed` the branch does not end in an `if` that would take the `else`.
    exact Node.readable_ifElse hc ((Node.readable yes hyes').statement hyes) hclosed
      ((Node.readable no hno').statement hno)
  | .switch _ e cases, h =>
    rw [Node.isWellFormed, Bool.and_eq_true] at h
    exact Node.readable_switch h.1 (Case.readable_all cases h.2)
  | .forLoop _ init c u body, h =>
    simp only [Node.isWellFormed, Bool.and_eq_true] at h
    obtain ⟨⟨⟨⟨hinit, hc⟩, hu⟩, hbody⟩, hbody'⟩ := h
    exact Node.readable_forLoop hinit hc hu ((Node.readable body hbody').statement hbody)
  | .whileLoop _ c body, h =>
    simp only [Node.isWellFormed, Bool.and_eq_true] at h
    exact Node.readable_whileLoop h.1.1 ((Node.readable body h.2).statement h.1.2)
  | .doWhile _ body c, h =>
    simp only [Node.isWellFormed, Bool.and_eq_true] at h
    exact Node.readable_doWhile ((Node.readable body h.2).statement h.1.2) h.1.1
  | .break _, _ => exact Node.readable_break
  | .continue _, _ => exact Node.readable_continue
  | .return _ value, h => exact Node.readable_return h
  | .discard _, _ => exact Node.readable_discard

theorem Node.listed_all (ns : List (Node Unit (Expr Unit))) (h : Node.areItems ns = true) :
    ∀ n ∈ ns, n.Listed := by
  match ns, h with
  | [], _ => simp
  | n :: more, h =>
    simp only [Node.areItems, Bool.and_eq_true, Bool.not_eq_true'] at h
    exact List.forall_mem_cons.2
      ⟨(Node.readable n h.1.2).listed h.1.2 h.1.1, Node.listed_all more h.2⟩

theorem Case.readable_all (cs : List (Case Unit (Expr Unit))) (h : Case.areWellFormed cs = true) :
    ∀ c ∈ cs, c.Readable := by
  match cs, h with
  | [], _ => simp
  | .mk _ label body :: more, h =>
    simp only [Case.areWellFormed, Case.isWellFormed, Bool.and_eq_true] at h
    exact List.forall_mem_cons.2 ⟨⟨h.1.1, Node.listed_all body h.1.2⟩, Case.readable_all more h.2⟩

end

/-- Listed items are read one by one up to the end of input. -/
theorem parsesItems_of_listed {ns : List (Node Unit (Expr Unit))} (h : ∀ n ∈ ns, n.Listed) :
    ParsesItems Missing.IsConversion (Node.symbolsAll ns) ns := by
  induction ns with
  | nil => exact .nil
  | cons n more ih =>
    obtain ⟨hn, hmore⟩ := List.forall_mem_cons.1 h
    have hend : (([] : List Symbol).headD Symbol.finish).kind ∉ [Kind.semicolon, .else] := by decide
    have hhead := head_symbolsAll hmore hend
    rw [List.append_nil] at hhead
    refine .cons ?_ (hn.item (n.precedes hhead)) (ih hmore)
    obtain ⟨x, w, hx, -⟩ := hn.starts
    simp [Node.symbolsAll, hx]

/-- Without the option for them, no conversions are chosen. -/
theorem Grammar.Repair.chosen_conversions {o : Options} (ho : o.conversions = false)
    {R : List Repair} (hR : ∀ r ∈ R, r.missing.IsConversion) (stream : Stream) :
    Repair.chosen stream o R = [] := by
  refine List.filter_eq_nil_iff.2 fun r hr => ?_
  obtain ⟨index, missing⟩ := r
  obtain ⟨T, first, rfl⟩ := hR _ hr
  exact ne_true_of_eq_false ho

namespace Document

/-- The text of well-formed items with all their punctuation is reported as these items, without
edits if there are to be no conversions. -/
theorem parse_listing (ns : List (Node Unit (Expr Unit))) (h : Node.areItems ns = true)
    (o : Options) (ho : o.conversions = false) :
    ∃ report, parse (Symbol.spell (Node.symbolsAll ns)) o = .ok report ∧ report.edits = [] ∧
      report.module.bare = ns.map .item := by
  have hitems := parsesItems_of_listed (Node.listed_all ns h)
  rw [← Symbol.symbols_spell (Node.allSpelled_all ns h)] at hitems
  obtain ⟨report, R, hparse, hmodule, hedits, hR⟩ := parse_of_symbols hitems o
  refine ⟨report, hparse, ?_, hmodule⟩
  rw [hedits, Repair.chosen_conversions ho hR]
  rfl

/-- A shader with most forms in it. The else belongs to the inner if. -/
def gallery : List (Node Unit (Expr Unit)) :=
  let here : Extent Unit := ⟨(), ()⟩
  let name (s : String) : Name Unit := ⟨ascii s, ()⟩
  let id (s : String) : Expr Unit := .identifier () (ascii s)
  let int (s : String) : Expr Unit := .literal () .int (ascii s)
  let word (s : String) (c : QualifierClass) : Qualifier Unit := ⟨name s, c⟩
  let type (s : String) : TypeSpec Unit (Expr Unit) := ⟨name s, []⟩
  let plain (s : String) : Declarator Unit (Expr Unit) := ⟨name s, [], none⟩
  let free : Qualifiers Unit (Expr Unit) := ⟨[], []⟩
  let choice : Node Unit (Expr Unit) := .ifThen here (id "x")
    (.ifElse here (id "y") (.empty here) (.return here (some (id "x"))))
  let loop : Node Unit (Expr Unit) := .forLoop here
    (.vars here ⟨free, type "int", [⟨name "i", [], some (int "0")⟩]⟩) (some (id "i")) none
    (.doWhile here (.discard here) (id "i"))
  let list : Node Unit (Expr Unit) := .vars here ⟨free, type "float",
    [⟨name "a", [none], some (.initializers () [int "1", .initializers () []])⟩, plain "b"]⟩
  let select : Node Unit (Expr Unit) := .switch here (id "i")
    [.mk here (some (int "1")) [.break here], .mk here none [.block here []]]
  let binding : Qualifiers Unit (Expr Unit) :=
    ⟨[⟨name "shared", none⟩, ⟨name "binding", some (int "1")⟩], [word "uniform" .storage]⟩
  [.interface here binding (name "Lights")
      [⟨here, free, type "vec3", [plain "from", plain "to"]⟩] [plain "lights"],
    .struct here free (some (name "S")) [] [],
    .qualifiers here ⟨[], [word "invariant" .variance]⟩ [name "gl_Position"],
    .precision here (name "highp") (type "float"),
    .prototype here ⟨free, ⟨name "int", [some (int "2")]⟩, name "g", []⟩,
    .function here ⟨free, type "float", name "f",
        [⟨⟨[], [word "const" .storage, word "highp" .precision]⟩, type "float",
          some (name "x"), []⟩, ⟨free, type "int", none, []⟩]⟩ here
      [choice, loop, list, select, .expression here (id "a")]]

theorem parse_listing_gallery :
    Symbol.spell (Node.symbolsAll gallery) =
      ascii "layout ( shared , binding = 1 ) uniform Lights \x7b vec3 from , to ; \x7d lights ; " ++
      ascii "struct S \x7b \x7d ; invariant gl_Position ; precision highp float ; " ++
      ascii "int [ 2 ] g ( ) ; float f ( const highp float x , int ) \x7b " ++
      ascii "if ( x ) if ( y ) ; else return x ; " ++
      ascii "for ( int i = 0 ; i ; ) do discard ; while ( i ) ; " ++
      ascii "float a [ ] = \x7b 1 , \x7b \x7d \x7d , b ; " ++
      ascii "switch ( i ) \x7b case 1 : break ; default : \x7b \x7d \x7d a ; \x7d" ∧
    ∃ report, parse (Symbol.spell (Node.symbolsAll gallery)) ⟨true, true, true, true, true, false⟩ =
        .ok report ∧
      report.edits = [] ∧ report.module.bare = gallery.map .item :=
  ⟨by decide +kernel, parse_listing gallery (by decide +kernel) _ rfl⟩

end Document

end ShaderRepair
