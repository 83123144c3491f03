import ShaderRepair.Proofs.RetraceConversion

/-!
# Retracing declarations

The rules for qualifiers, types, variables and members accept again what they have accepted with
repairs. This file contains:
- array dimensions, which the lookahead for declarations passes also in the repaired symbols;
- layouts and qualifiers;
- initial values, where a conversion may be put in, and declared variables;
- parameters, members and names.
-/

namespace ShaderRepair

namespace Grammar

open Piece Procedure Retraces

variable {C : Nat → Text → Bool} {d : Nat}

/-- Which symbols one of a single expected kind can be. -/
theorem kind_of_expected {k : Kind} {x : Symbol}
    (h : ([Expectation.kind k].any fun e => e.accepts x) = true) : x.kind = k := by
  simpa [Expectation.accepts] using h

/-! ## Array dimensions and types -/

/-- The lookahead for declarations passes the pieces. -/
def PassedOver (P : List Piece) : Prop :=
  ∀ rest, Symbol.nameAfterDims 0 (new P ++ rest) = Symbol.nameAfterDims 0 rest

theorem PassedOver.nil : PassedOver [] :=
  fun _ => rfl

theorem PassedOver.brackets {y z : Symbol} {P P' : List Piece} (hy : y.kind = .leftBracket)
    (hz : z.kind = .rightBracket) (h : Neutral P) (h' : PassedOver P') :
    PassedOver (.kept y :: (P ++ .kept z :: P')) := by
  intro rest
  have hopen : ∀ more, Symbol.nameAfterDims 0 (y :: more) = Symbol.nameAfterDims 1 more := by
    simp [Symbol.nameAfterDims, hy]
  have hclose : ∀ more, Symbol.nameAfterDims 1 (z :: more) = Symbol.nameAfterDims 0 more := by
    simp [Symbol.nameAfterDims, hz]
  simp only [new_kept, new_append, List.cons_append, List.append_assoc]
  rw [hopen, h, hclose, h']

/-- Expressions of one shape, or none. -/
def AlikeOption (o o' : Option Tree) : Prop :=
  o.map Expr.bare = o'.map Expr.bare

theorem retraces_some {x : Symbol} {F : List Kind} {S : List Piece → Prop} {p p' : Procedure Tree}
    (h : Retraces C d x F S Alike p p') :
    Retraces C d x F S AlikeOption (some <$> p) (some <$> p') := by
  refine mapped (h.weaken (fun _ hk => hk) (fun _ hS => hS) fun e e' he => ?_)
  exact congrArg some he

/-- Dimensions of one shape. -/
def AlikeDims (ds ds' : List (Option Tree)) : Prop :=
  ds.map (Option.map Expr.bare) = ds'.map (Option.map Expr.bare)

theorem retraces_dims (C : Nat → Text → Bool) (d : Nat) (x : Symbol) :
    Retraces C d x allMarks (fun P => Led P ∧ PassedOver P) AlikeDims (run .dims) (run .dims) := by
  refine recursive .dims (fun d ih x => ?_) d x
  refine accept (fun y hy => .of_accepts hy (by decide)) ?_ ?_
  · intro hx y
    have hopen : x.kind = .leftBracket := of_accepts_kind hx
    -- What comes behind the size.
    have hclose : ∀ {S : List Piece → Prop} {size size' : Option Tree},
        AlikeOption size size' →
        (∀ z P, z.kind = .rightBracket → Led P → PassedOver P → S (.kept z :: P)) → ∀ z,
        Retraces C d z allMarks S AlikeDims
          (Procedure.expect [.kind .rightBracket] >>= fun _ =>
            run .dims >>= fun more => pure (size :: more))
          (Procedure.expect [.kind .rightBracket] >>= fun _ =>
            run .dims >>= fun more => pure (size' :: more)) := by
      intro S size size' hsize hS z
      refine expect (fun w hw => .of_kind (kind_of_expected hw) (by decide)) fun hz n n' w => ?_
      refine .bind (ih w) fun ds ds' P hds hP _ v => done ?_ ?_
      · simp only [AlikeDims, AlikeOption] at *
        simp [hsize, hds]
      · simpa using hS z P (kind_of_expected hz) hP.1 hP.2
    simp only [if_true]
    refine next ?_
    by_cases hy : y.kind = .rightBracket
    · simp only [if_pos hy]
      refine hclose rfl ?_ y
      intro z P hz hP hP'
      have hover : PassedOver (.kept x :: ([] ++ .kept z :: P)) :=
        .brackets hopen hz .nil hP'
      simpa [opens_kept.led] using hover
    · simp only [if_neg hy]
      refine .bind (retraces_some ((expressions C d).expression y)) ?_
      intro size size' P hsize hP _ z
      refine hclose hsize ?_ z
      intro w P' hw hP' hP''
      have hover : PassedOver (.kept x :: (P ++ .kept w :: P')) :=
        .brackets hopen hw hP.2 hP''
      simpa [opens_kept.led, hP.1.opens.append.tolerates] using hover
  · intro hx
    simp only [Bool.false_eq_true, if_false]
    refine done rfl ?_
    simp [Led, PassedOver.nil, allMarks, Expectation.accepts]

/-- The pieces of a type: a name, and dimensions that the lookahead passes. -/
def TypePieces (P : List Piece) : Prop :=
  ∃ y P', P = .kept y :: P' ∧ y.kind = .identifier ∧ Led P' ∧ PassedOver P'

theorem TypePieces.opens {P : List Piece} (h : TypePieces P) : Opens P := by
  obtain ⟨y, P', rfl, -⟩ := h
  exact opens_kept

/-- A type and a name after it make a declaration. -/
theorem TypePieces.declares {P P' : List Piece} {y : Symbol} (h : TypePieces P)
    (hy : y.kind = .identifier) : Declares (P ++ .kept y :: P') := by
  obtain ⟨z, Q, rfl, hz, -, hQ⟩ := h
  intro rest
  simp only [List.cons_append, new_kept, new_append, List.append_assoc, Symbol.startsDeclaration,
    hz, decide_true, Bool.true_and]
  rw [hQ]
  simp [Symbol.nameAfterDims, hy]

/-- Types of one shape. -/
def AlikeType (t t' : TypeSpec Nat Tree) : Prop :=
  t.bare = t'.bare

theorem AlikeType.name_eq {t t' : TypeSpec Nat Tree} (h : AlikeType t t') :
    t.name.text = t'.name.text :=
  congrArg (fun t => t.name.text) h

theorem AlikeType.isEmpty_eq {t t' : TypeSpec Nat Tree} (h : AlikeType t t') :
    t.dims.isEmpty = t'.dims.isEmpty := by
  have hdims := congrArg (fun t => t.dims.isEmpty) h
  simpa [TypeSpec.bare, TypeSpec.map] using hdims

theorem retraces_typeSpec (C : Nat → Text → Bool) (d : Nat) (x : Symbol) :
    Retraces C d x allMarks TypePieces AlikeType typeSpec typeSpec := by
  refine expect (fun y hy => .of_kind (kind_of_expected hy) (by decide)) fun hx n n' y => ?_
  refine .bind (retraces_dims C d y) fun ds ds' P hds hP _ z => done ?_ ?_
  · simp only [AlikeType, AlikeDims] at *
    simp [TypeSpec.bare, TypeSpec.map, Name.map, hds]
  · have htype : TypePieces (.kept x :: P) := ⟨x, P, rfl, kind_of_expected hx, hP⟩
    simpa using htype

/-! ## Layouts and qualifiers -/

@[simp] theorem equals_mark {k : Kind} (hk : k ≠ .operator) :
    equals.accepts (Symbol.mark k) = false := by
  simp [equals, Expectation.accepts, hk]

/-- Layout parameters of one shape. -/
def AlikeLayout (ps ps' : List (LayoutParam Nat Tree)) : Prop :=
  ps.map LayoutParam.bare = ps'.map LayoutParam.bare

theorem retraces_layoutParams (C : Nat → Text → Bool) (d : Nat) (x : Symbol) :
    Retraces C d x [.rightParen] Led AlikeLayout (run .layoutParams) (run .layoutParams) := by
  refine recursive .layoutParams (fun d ih x => ?_) d x
  refine next ?_
  by_cases hx : x.kind = .rightParen
  · simp only [if_pos hx]
    refine done rfl ?_
    simp [Led]
  simp only [if_neg hx]
  refine expect (fun y hy => .of_any hy (by decide)) fun hx n n' y => ?_
  -- What comes behind a parameter.
  have hmore : ∀ {S : List Piece → Prop} {value value' : Option Tree}, AlikeOption value value' →
      (∀ P, Led P → S P) → ∀ z, Retraces C d z [.rightParen] S AlikeLayout
        (Procedure.accept (.kind .comma) >>= fun b => if b = true then
          run .layoutParams >>= fun more => pure (⟨⟨x.lexeme, n⟩, value⟩ :: more)
          else pure [⟨⟨x.lexeme, n⟩, value⟩])
        (Procedure.accept (.kind .comma) >>= fun b => if b = true then
          run .layoutParams >>= fun more => pure (⟨⟨x.lexeme, n'⟩, value'⟩ :: more)
          else pure [⟨⟨x.lexeme, n'⟩, value'⟩]) := by
    intro S value value' hvalue hS z
    refine accept (fun w hw => .of_accepts hw (by decide)) ?_ ?_
    · intro hz w
      simp only [if_true]
      refine .bind (ih w) fun more more' P hmore hP _ v => done ?_ ?_
      · simp only [AlikeLayout, AlikeOption] at *
        simp [LayoutParam.bare, LayoutParam.map, Name.map, hvalue]
        exact hmore
      · simpa using hS _ opens_kept.led
    · intro hz
      simp only [Bool.false_eq_true, if_false]
      refine done ?_ ?_
      · simp only [AlikeLayout, AlikeOption] at *
        simp [LayoutParam.bare, LayoutParam.map, Name.map, hvalue]
      · simpa [Expectation.accepts] using hS _ (.inl rfl)
  refine accept (fun z hz => .of_accepts hz (by decide)) ?_ ?_
  · intro hy z
    simp only [if_true]
    refine .bind (retraces_some ((expressions C d).assignment z)) ?_
    intro value value' P hvalue hP _ w
    refine hmore hvalue ?_ w
    intro P' hP'
    have htol : Tolerates (Among allMarks) [.rightParen] P' :=
      hP'.tolerates (by simp [allMarks])
    simpa [htol] using opens_kept.led
  · intro hy
    simp only [Bool.false_eq_true, if_false, pure_bind]
    refine hmore rfl ?_ y
    intro P hP
    have htol : Tolerates (fun z => equals.accepts z = false) [.rightParen] P :=
      hP.tolerates (by simp)
    simpa [htol] using opens_kept.led

/-- Qualifiers of one shape. -/
def AlikeQualifiers (q q' : Qualifiers Nat Tree) : Prop :=
  q.bare = q'.bare

/-- The pieces of qualifiers. -/
def QualifierPieces (P : List Piece) : Prop :=
  P = [] ∨ ∃ y P', P = .kept y :: P' ∧ (y.kind = .layout ∨ y.kind = .qualifier)

theorem QualifierPieces.led {P : List Piece} (h : QualifierPieces P) : Led P := by
  rcases h with rfl | ⟨y, P', rfl, -⟩
  · exact .inl rfl
  · exact opens_kept.led

theorem AlikeQualifiers.any_eq {q q' : Qualifiers Nat Tree} (h : AlikeQualifiers q q')
    (c : QualifierClass) :
    (q.words.any fun w => w.kind = c) = q'.words.any fun w => w.kind = c := by
  have hkinds : q.words.map Qualifier.kind = q'.words.map Qualifier.kind := by
    have hwords := congrArg (fun q => q.words.map Qualifier.kind) h
    simpa [Qualifiers.bare, Qualifiers.map, Qualifier.map, Function.comp_def] using hwords
  have hany : ∀ q : Qualifiers Nat Tree,
      (q.words.any fun w => w.kind = c) = (q.words.map Qualifier.kind).any fun k => k = c := by
    intro q
    rw [List.any_map]
    rfl
  rw [hany, hany, hkinds]

theorem retraces_qualifiers (C : Nat → Text → Bool) (d : Nat) {found found' : Qualifiers Nat Tree}
    (hfound : AlikeQualifiers found found') (x : Symbol) :
    Retraces C d x [] QualifierPieces AlikeQualifiers (run (.qualifiers found))
      (run (.qualifiers found')) := by
  induction d generalizing x found found' with
  | zero =>
    intro s t a hx hp
    cases hp
  | succ d ih =>
    refine call (.qualifiers found) (.qualifiers found') (next ?_)
    have hkept : ∀ {P : List Piece}, x.kind = .layout ∨ x.kind = .qualifier →
        QualifierPieces (.kept x :: P) :=
      fun hx => .inr ⟨x, _, rfl, hx⟩
    -- A layout, another qualifier, which may repeat one that has been found, or neither.
    split
    · next hx =>
      refine take (.of_kind hx (by decide)) fun n n' y => ?_
      refine expect (fun z hz => .of_kind (kind_of_expected hz) (by decide)) fun hy n n' z => ?_
      refine .bind (retraces_layoutParams C d z) fun ps ps' P hps hP _ w => ?_
      refine .bind (orMissing rfl) fun _ _ P' _ hP' _ v => ?_
      refine (ih ?_ v).weaken (fun _ hk => hk) ?_ fun _ _ hq => hq
      · simp only [AlikeQualifiers, AlikeLayout, Qualifiers.bare, Qualifiers.map,
          Qualifiers.mk.injEq, List.map_append] at *
        exact ⟨congr (congrArg _ hfound.1) hps, hfound.2⟩
      · intro P'' hP''
        have htol : Tolerates (Among [.rightParen]) [] (P' ++ P'') :=
          hP'.tolerates_append (by simp)
        have htol' : Tolerates (Among allMarks) [] P'' := hP''.led.tolerates (by simp)
        simpa [htol, htol'] using hkept (.inl hx)
    · next hx =>
      refine take (.of_kind hx (by decide)) fun n n' y => ?_
      rw [hfound.any_eq]
      split
      · refine (ih hfound y).weaken (fun _ hk => hk) ?_ fun _ _ hq => hq
        intro P hP
        simpa using hkept (.inr hx)
      · refine (ih ?_ y).weaken (fun _ hk => hk) ?_ fun _ _ hq => hq
        · simp only [AlikeQualifiers, Qualifiers.bare, Qualifiers.map, Qualifiers.mk.injEq,
            List.map_append] at *
          exact ⟨hfound.1, congr (congrArg _ hfound.2) rfl⟩
        · intro P hP
          simpa using hkept (.inr hx)
    · refine done hfound ?_
      exact ⟨.inl rfl, by simp⟩

/-- No qualifiers. -/
theorem AlikeQualifiers.none : AlikeQualifiers ⟨[], []⟩ ⟨[], []⟩ :=
  rfl

/-! ## Declared names -/

/-- Declarators of one shape. -/
def AlikeDeclarators (ds ds' : List (Declarator Nat Tree)) : Prop :=
  ds.map Declarator.bare = ds'.map Declarator.bare

theorem retraces_declarators (C : Nat → Text → Bool) (d : Nat) (x : Symbol) :
    Retraces C d x [.semicolon] Opens AlikeDeclarators (run .declarators) (run .declarators) := by
  refine recursive .declarators (fun d ih x => ?_) d x
  refine expect (fun y hy => .of_kind (kind_of_expected hy) (by decide)) fun hx n n' y => ?_
  refine .bind (retraces_dims C d y) fun dims dims' P hdims hP _ z => ?_
  have hbare : (⟨⟨x.lexeme, n⟩, dims, none⟩ : Declarator Nat Tree).bare =
      (⟨⟨x.lexeme, n'⟩, dims', none⟩ : Declarator Nat Tree).bare := by
    simp only [AlikeDims] at hdims
    simp [Declarator.bare, Declarator.map, Name.map, hdims]
  refine accept (fun w hw => .of_accepts hw (by decide)) ?_ ?_
  · intro hz w
    simp only [if_true]
    refine .bind (ih w) fun ds ds' P' hds hP' _ v => done ?_ ?_
    · simp only [AlikeDeclarators, List.map_cons] at *
      rw [hbare, hds]
    · simp
  · intro hz
    simp only [Bool.false_eq_true, if_false]
    refine done (congrArg (fun d => [d]) hbare) ?_
    simp [Expectation.accepts, allMarks]

/-- Names of one text. -/
def AlikeNames (ns ns' : List (Name Nat)) : Prop :=
  ns.map Name.bare = ns'.map Name.bare

theorem retraces_names (C : Nat → Text → Bool) (d : Nat) (x : Symbol) :
    Retraces C d x [.semicolon] (fun P => ∃ y P', P = .kept y :: P' ∧ Led P') AlikeNames
      (run .names) (run .names) := by
  refine recursive .names (fun d ih x => ?_) d x
  refine expect (fun y hy => .of_kind (kind_of_expected hy) (by decide)) fun hx n n' y => ?_
  refine accept (fun w hw => .of_accepts hw (by decide)) ?_ ?_
  · intro hz w
    simp only [if_true]
    refine .bind (ih w) fun ns ns' P hns hP _ v => done ?_ ?_
    · simp only [AlikeNames, List.map_cons] at *
      rw [hns]
      rfl
    · exact ⟨⟨x, _, rfl, opens_kept.led⟩, by simp⟩
  · intro hz
    simp only [Bool.false_eq_true, if_false]
    refine done rfl ?_
    exact ⟨⟨x, _, rfl, .inl rfl⟩, by simp [Expectation.accepts]⟩

/-! ## Initial values -/

/-- Whether a conversion is noted for an initializer. -/
def converts (type : TypeSpec Nat Tree) (dims : List (Option Tree)) (e : Tree) : Bool :=
  type.dims.isEmpty && dims.isEmpty && e.needsConversion type.name.text

theorem exec_initialValue {callee : (r : Rule) → State → Outcome r.Result}
    {type : TypeSpec Nat Tree} {dims : List (Option Tree)} {s t : State} {o : Option Tree} :
    (initialValue type dims).exec callee s = .accepted o t ↔
      (equals.accepts s.next = false ∧ o = none ∧ t = s) ∨
      (equals.accepts s.next = true ∧ ∃ e m,
        (run .initializer).exec callee s.shift = .accepted e m ∧ o = some e ∧
        t = if converts type dims e then m.repair (.conversion type.name.text s.shift.passed)
          else m) := by
  rw [initialValue, exec_bind, exec_accept]
  cases heq : equals.accepts s.next with
  | false =>
    simp only [Bool.false_eq_true, if_false, exec_pure, Outcome.accepted.injEq, false_and,
      or_false, true_and]
    exact ⟨fun h => ⟨h.1.symm, h.2.symm⟩, fun h => ⟨h.1.symm, h.2.symm⟩⟩
  | true =>
    simp only [if_true, exec_bind_accepted, exec_position, Outcome.accepted.injEq,
      Bool.true_eq_false, false_and, false_or, true_and]
    constructor
    · rintro ⟨first, m, ⟨rfl, rfl⟩, e, m', he, hp⟩
      refine ⟨e, m', he, ?_⟩
      unfold converts
      split at hp
      · next hc =>
        cases hp
        exact ⟨rfl, by rw [if_pos hc]⟩
      · next hc =>
        cases hp
        exact ⟨rfl, by rw [if_neg hc]⟩
    · rintro ⟨e, m, he, rfl, rfl⟩
      refine ⟨_, _, ⟨rfl, rfl⟩, e, m, he, ?_⟩
      unfold converts
      split
      · rfl
      · rfl

/-- The second value is the first one after its conversion. -/
def AlikeConverted (C : Nat → Text → Bool) (T : Text) (o o' : Option Tree) : Prop :=
  (o.map (Expr.convert C T)).map Expr.bare = o'.map Expr.bare

theorem converts_congr {type type' : TypeSpec Nat Tree} {dims dims' : List (Option Tree)}
    {e e' : Tree} (htype : AlikeType type type') (hdims : AlikeDims dims dims') (he : Alike e e') :
    converts type dims e = converts type' dims' e' := by
  have hempty : dims.isEmpty = dims'.isEmpty := by
    have := congrArg List.isEmpty hdims
    simpa using this
  simp only [converts, htype.isEmpty_eq, hempty, htype.name_eq,
    Expr.needsConversion_congr he type'.name.text]

/-- A mark finishes an expression. -/
theorem finishes_mark {k : Kind} (hk : k ∈ allMarks) : Finishes (Symbol.mark k) := by
  refine ⟨⟨?_, fun l _ => plays_mark⟩, plays_mark, plays_mark⟩
  simp only [allMarks, List.mem_cons, List.not_mem_nil, or_false] at hk
  rcases hk with rfl | rfl | rfl | rfl <;> simp [Symbol.trails]

theorem Follows.finishes {F : List Kind} {rest rest' : List Symbol} (h : Follows F rest rest')
    (hF : ∀ k ∈ F, k ∈ allMarks) (hrest : Finishes (rest.headD Symbol.finish)) :
    Finishes (rest'.headD Symbol.finish) := by
  rcases h.2 with heq | ⟨k, hk, more, rfl⟩
  · rw [heq]
    exact hrest
  · exact finishes_mark (hF k hk)

section InitialValue

variable {type type' : TypeSpec Nat Tree} {dims dims' : List (Option Tree)}

/-- An initializer that stays as it is. -/
theorem retraces_plainValue {s m : State} {x : Symbol} {e : Tree} (htype : AlikeType type type')
    (hdims : AlikeDims dims dims') (hx : s.next = x) (hsign : equals.accepts x = true)
    (he : (run .initializer).exec (Rule.run d) s.shift = .accepted e m)
    (hconv : converts type dims e = false) :
    ∃ P R, Passes s m P R ∧ Opens P ∧
      (Agrees C s.passed P R → ∀ ⦃n : Nat⦄ ⦃s' : State⦄ ⦃rest' : List Symbol⦄,
        d + callsPerSymbol * extra P ≤ n → s'.rest = new P ++ rest' →
        Follows allMarks m.rest rest' →
        ∃ o' t', (initialValue type' dims').exec (Rule.run n) s' = .accepted o' t' ∧
          t'.rest = rest' ∧ t'.repairs = s'.repairs ∧
          AlikeConverted C type.name.text (some e) o') := by
  have hpassable := Passable.of_accepts hsign (by decide)
  obtain ⟨more, hrest⟩ := State.rest_of_next hx hpassable.2
  have hshift := Passes.shift hrest hpassable.1
  obtain ⟨-, P, R, hpass, hopens, hsim⟩ := (initializers C d).initializer _ rfl he
  have hnoted : Noted (s.passed + 1) P R := by
    have := hpass.noted
    rwa [hshift.passed] at this
  refine ⟨.kept x :: P, R, hshift.trans hpass, opens_kept, ?_⟩
  intro hC n s' rest' hn hs' hfollows
  -- No conversion is noted at the first symbol, since none is noted before its sign.
  have hnever : C e.note.first type.name.text = false := by
    have hfirst : e.note.first = s.passed + 1 := by
      rw [(initializer_spec he).1, hshift.passed]
      rfl
    obtain ⟨y, P', rfl⟩ := hopens
    rw [hfirst, Bool.eq_false_iff, ne_eq, hC _ _ (by omega) (by simp)]
    rintro ⟨index, hR⟩
    have := ((hnoted.stands _ hR).conversion rfl).1
    omega
  have hC' : Agrees C s.shift.passed P R := by
    rw [hshift.passed]
    exact (Agrees.split (.kept s.passed hpassable.1) hnoted hC).2
  rw [extra_kept] at hn
  have hs'' := State.shift_of_rest hs'
  have hrest'' : s'.shift.rest = new P ++ rest' := by
    rw [hs'']
    rfl
  obtain ⟨e', m', he', hm', hr', halike⟩ := hsim hC' hn hrest'' hfollows
  refine ⟨some e', m', exec_initialValue.2 (.inr ⟨?_, e', m', he', rfl, ?_⟩), hm', ?_, ?_⟩
  · rw [State.next, hs']
    exact hsign
  · rw [← converts_congr htype hdims halike, hconv]
    rfl
  · rw [hr', hs'']
  · rw [AlikeConverted, Option.map_some, Expr.convert, hnever]
    exact congrArg some halike

/-- A run that ends in a conversion passes the sign and the initializer with a call around it. -/
theorem passes_conversion {s m : State} {x y : Symbol} {T : Text} {P : List Piece}
    {R : List Repair} {more : List Symbol} (hrest : s.rest = x :: more)
    (hsign : equals.accepts x = true) (hT : (ValueType.lookup T).isSome = true)
    (h : Passes s.shift m (.kept y :: P) R) :
    Passes s (m.repair (.conversion T s.shift.passed))
      (.kept x :: .opened (some T) y :: (P ++ [.behind .rightParen]))
      (R ++ [⟨m.passed, .conversion T s.shift.passed⟩]) := by
  have hshift := Passes.shift hrest (Passable.of_accepts hsign (by decide)).1
  have hpassed : s.shift.passed = s.passed + 1 := hshift.passed
  have hend : m.passed = s.passed + 1 + (old (.kept y :: P)).length := by
    rw [h.passed, hpassed]
  refine ⟨?_, ?_, ?_, ?_⟩
  · rw [hshift.rest, h.rest]
    simp [State.repair]
  · change m.passed = _
    rw [hend]
    simp
    omega
  · change ⟨m.passed, _⟩ :: m.repairs = _
    rw [h.repairs, hshift.repairs]
    simp
  · have hnoted : Noted (s.passed + 1) (.kept y :: P) R := hpassed ▸ h.noted
    rw [hend, hpassed]
    exact .conversion hsign hT hnoted

/-- The initializer of such pieces is chosen, and within it what its own repairs say. -/
theorem agrees_conversion {n index : Nat} {x y : Symbol} {T : Text} {P : List Piece}
    {R : List Repair}
    (h : Agrees C n (.kept x :: .opened (some T) y :: (P ++ [.behind .rightParen]))
      (R ++ [⟨index, .conversion T (n + 1)⟩])) :
    C (n + 1) T = true ∧ Agrees C (n + 1) (.kept y :: P) R := by
  have hlen : (old (.kept x :: .opened (some T) y :: (P ++ [.behind .rightParen]))).length =
      (old (.kept y :: P)).length + 1 := by
    simp
  constructor
  · rw [h _ _ (by omega) (by simp)]
    exact ⟨index, by simp⟩
  · intro i U hi hi'
    rw [h i U (by omega) (by omega)]
    constructor
    · rintro ⟨index, hR⟩
      rcases List.mem_append.1 hR with hR | hR
      · exact ⟨index, hR⟩
      · simp only [List.mem_singleton, Repair.mk.injEq, Missing.conversion.injEq] at hR
        omega
    · exact fun ⟨index, hR⟩ => ⟨index, List.mem_append_left _ hR⟩

/-- The second run reads the call as the initial value, given a run on the argument as it stood. -/
theorem reads_convertedValue (dims' : List (Option Tree)) {e : Nat} {s : State} {x y : Symbol}
    {words rest : List Symbol} {R : Tree → Prop}
    (hs : s.rest = x :: (opening (some type'.name.text) y.broken ++
      ((y.joined :: words) ++ Symbol.mark .rightParen :: rest)))
    (hsign : equals.accepts x = true) (hy : y.startsExpression = true)
    (harg : ∀ m : State, m.rest = (y :: words) ++ Symbol.mark .rightParen :: rest →
      ∃ I t, (run .assignment).exec (Rule.run e) m = .accepted I t ∧
        t.rest = Symbol.mark .rightParen :: rest ∧ t.repairs = m.repairs ∧ R I)
    (hrest : Finishes (rest.headD Symbol.finish)) :
    ∃ X X' I t, (initialValue type' dims').exec (Rule.run (e + 17)) s =
        .accepted (some (.call X (.identifier X' type'.name.text) [I])) t ∧
      t.rest = rest ∧ t.repairs = s.repairs ∧ R I := by
  have hshift := State.shift_of_rest hs
  have hkind : y.kind ≠ .rightParen := by
    intro hk
    simp [Symbol.startsExpression, Symbol.plays, hk] at hy
  -- The line break before the argument stands before the call now, where it is not missed.
  have hjoined : ∀ m : State, m.rest = (y.joined :: words) ++ Symbol.mark .rightParen :: rest →
      ∃ I t, (run .assignment).exec (Rule.run e) m = .accepted I t ∧
        t.rest = Symbol.mark .rightParen :: rest ∧ t.repairs = m.repairs ∧ R I := by
    intro m hm
    obtain ⟨I, t, hI, ht, hr, hR⟩ :=
      harg { m with rest := (y :: words) ++ Symbol.mark .rightParen :: rest } rfl
    have hsame : { m with rest := y.joined :: (words ++ Symbol.mark .rightParen :: rest) } = m := by
      rw [← List.cons_append, ← hm]
    have hblind := blind_run e (r := .assignment) rfl y rfl hI
    exact ⟨I, t, hsame ▸ hblind, ht, hr, hR⟩
  obtain ⟨X, X', I, t, hcall, ht, hr, hR⟩ :=
    reads_call (s := s.shift) (by rw [hshift]) (by simpa using hkind) hjoined hrest
  have honce : converts type' dims' (.call X (.identifier X' type'.name.text) [I]) = false := by
    rw [converts, Expr.needsConversion_call, Bool.and_false]
  refine ⟨X, X', I, t, exec_initialValue.2 (.inr ⟨?_, _, t, hcall, rfl, ?_⟩), ht, ?_, hR⟩
  · rw [State.next, hs]
    exact hsign
  · rw [honce]
    rfl
  · rw [hr, hshift]

/-- What is converted has a declared type, and is no list of initializers. -/
theorem assignment_of_converts {s m : State} {e : Tree}
    (he : (run .initializer).exec (Rule.run d) s = .accepted e m)
    (hconv : converts type dims e = true) :
    (ValueType.lookup type.name.text).isSome = true ∧
      (run .assignment).exec (Rule.run d) s = .accepted e m := by
  have hneeds : e.needsConversion type.name.text = true := by
    simp only [converts, Bool.and_eq_true] at hconv
    exact hconv.2
  constructor
  · unfold Expr.needsConversion at hneeds
    cases hT : ValueType.lookup type.name.text with
    | none => simp [hT] at hneeds
    | some declared => rfl
  · rcases (initializer_spec he).2 with ⟨X, items, rfl⟩ | h
    · rw [Expr.needsConversion_initializers] at hneeds
      cases hneeds
    · exact h

/-- An initializer that is converted. -/
theorem retraces_convertedValue (dims' : List (Option Tree)) {s m : State} {x : Symbol} {e : Tree}
    (htype : AlikeType type type') (hx : s.next = x) (hsign : equals.accepts x = true)
    (he : (run .initializer).exec (Rule.run d) s.shift = .accepted e m)
    (hconv : converts type dims e = true) :
    ∃ P R, Passes s (m.repair (.conversion type.name.text s.shift.passed)) P R ∧ Opens P ∧
      (Agrees C s.passed P R → ∀ ⦃n : Nat⦄ ⦃s' : State⦄ ⦃rest' : List Symbol⦄,
        d + callsPerSymbol * extra P ≤ n → s'.rest = new P ++ rest' →
        Follows allMarks m.rest rest' →
        ∃ o' t', (initialValue type' dims').exec (Rule.run n) s' = .accepted o' t' ∧
          t'.rest = rest' ∧ t'.repairs = s'.repairs ∧
          AlikeConverted C type.name.text (some e) o') := by
  obtain ⟨hlookup, hassign⟩ := assignment_of_converts he hconv
  have hpassable := Passable.of_accepts hsign (by decide)
  obtain ⟨more, hrest⟩ := State.rest_of_next hx hpassable.2
  have hpassed : s.shift.passed = s.passed + 1 := (Passes.shift hrest hpassable.1).passed
  obtain ⟨-, P, R, hpass, ⟨⟨y, P', rfl, hy⟩, -⟩, hsim⟩ := (expressions C d).assignment _ rfl hassign
  have hfinishes := ((operands d).assignment hassign).2
  refine ⟨_, _, passes_conversion hrest hsign hlookup hpass, opens_kept, ?_⟩
  intro hC n s' rest' hn hs' hfollows
  rw [hpassed] at hC
  obtain ⟨hchosen, hC'⟩ := agrees_conversion hC
  rw [← hpassed] at hC'
  -- The three symbols of the call pay for the rules that read it.
  have hextra :
      extra (.kept x :: .opened (some type.name.text) y :: (P' ++ [.behind .rightParen])) =
        extra (.kept y :: P') + 3 := by
    simp [opening]
  rw [hextra] at hn
  obtain ⟨n, rfl⟩ : ∃ k, n = k + 17 := ⟨n - 17, by unfold callsPerSymbol at hn; omega⟩
  have hn' : d + callsPerSymbol * extra (.kept y :: P') ≤ n := by
    unfold callsPerSymbol at *
    omega
  have hclose : Follows allMarks m.rest (Symbol.mark .rightParen :: rest') :=
    ⟨.mark rfl hfollows.1, .inr ⟨.rightParen, by simp [allMarks], rest', rfl⟩⟩
  have hwords : s'.rest = x :: (opening (some type'.name.text) y.broken ++
      ((y.joined :: new P') ++ Symbol.mark .rightParen :: rest')) := by
    simpa [htype.name_eq] using hs'
  obtain ⟨X, X', I, t', hvalue, ht', hr', halike⟩ := reads_convertedValue (R := Alike e)
    dims' hwords hsign hy (fun m₁ hm₁ => hsim hC' hn' hm₁ hclose)
    (hfollows.finishes (fun _ hk => hk) hfinishes)
  refine ⟨_, t', hvalue, ht', hr', ?_⟩
  rw [AlikeConverted, Option.map_some, Expr.convert, (initializer_spec he).1, hpassed, hchosen]
  simp only [Alike] at halike
  simp [halike, htype.name_eq]

theorem retraces_initialValue (C : Nat → Text → Bool) (d : Nat) (htype : AlikeType type type')
    (hdims : AlikeDims dims dims') (x : Symbol) :
    Retraces C d x allMarks Led (AlikeConverted C type.name.text) (initialValue type dims)
      (initialValue type' dims') := by
  intro s t o hx hp
  rcases exec_initialValue.1 hp with ⟨hno, rfl, rfl⟩ | ⟨hyes, e, m, he, rfl, rfl⟩
  · -- No sign, no value.
    refine ⟨⟨none, rfl⟩, [], [], Passes.refl t, .inl rfl, ?_⟩
    intro _ n s' rest' _ hs' hfollows
    refine ⟨none, s', exec_initialValue.2 (.inl ⟨?_, rfl, rfl⟩), hs', rfl, rfl⟩
    rw [State.next, hs']
    rcases hfollows.2 with hh | ⟨k, hk, more, hh⟩
    · simp only [new_nil, List.nil_append, hh]
      exact hno
    · rw [hh]
      refine equals_mark ?_
      rintro rfl
      simp [allMarks] at hk
  · refine ⟨⟨(some e).map (Expr.convert C type.name.text), rfl⟩, ?_⟩
    rw [hx] at hyes
    cases hconv : converts type dims e with
    | false =>
      obtain ⟨P, R, hpass, hopens, hsim⟩ :=
        retraces_plainValue (C := C) htype hdims hx hyes he hconv
      exact ⟨P, R, hpass, hopens.led, hsim⟩
    | true =>
      obtain ⟨P, R, hpass, hopens, hsim⟩ :=
        retraces_convertedValue (C := C) dims' htype hx hyes he hconv
      exact ⟨P, R, hpass, hopens.led, hsim⟩

end InitialValue

/-! ## Variables -/

/-- The second declarators are the first ones after their conversions. -/
def AlikeVars (C : Nat → Text → Bool) (T : Text) (ds ds' : List (Declarator Nat Tree)) : Prop :=
  (ds.map (Declarator.convert C T)).map Declarator.bare = ds'.map Declarator.bare

theorem retraces_vars (C : Nat → Text → Bool) (d : Nat) {type type' : TypeSpec Nat Tree}
    (name name' : Name Nat) (htype : AlikeType type type') (hname : name.text = name'.text)
    (x : Symbol) :
    Retraces C d x [.semicolon] Led (AlikeVars C type.name.text) (run (.vars type name))
      (run (.vars type' name')) := by
  induction d generalizing x name name' with
  | zero =>
    intro s t a hx hp
    cases hp
  | succ d ih =>
    refine call (.vars type name) (.vars type' name') ?_
    refine .bind (retraces_dims C d x) fun dims dims' P hdims hP _ y => ?_
    refine .bind (retraces_initialValue C d htype hdims y) fun o o' P' ho hP' _ z => ?_
    have hbare : (Declarator.convert C type.name.text ⟨name, dims, o⟩).bare =
        (⟨name', dims', o'⟩ : Declarator Nat Tree).bare := by
      simp only [AlikeDims, AlikeConverted] at hdims ho
      simp only [Declarator.bare, Declarator.convert, Declarator.map, Name.map, hname, hdims, ho]
    have hled : Led (P ++ P') := hP.1.append hP'
    -- Behind a comma the next name is declared; without one, these are all.
    refine accept (fun w hw => .of_accepts hw (by decide)) ?_ ?_
    · intro hz w
      simp only [if_true]
      refine expect (fun v hv => .of_kind (kind_of_expected hv) (by decide)) fun hw n n' v => ?_
      have hmore := ih ⟨w.lexeme, n⟩ ⟨w.lexeme, n'⟩ rfl v
      refine .bind hmore fun ds ds' P'' hds hP'' _ u => done ?_ ?_
      · simp only [AlikeVars, List.map_cons] at *
        rw [hbare, hds]
      · have hmore : Led (P ++ (P' ++ .kept z :: .kept w :: P'')) :=
          hP.1.append (hP'.append opens_kept.led)
        have htol : Tolerates (Among allMarks) [.semicolon]
            (P' ++ .kept z :: .kept w :: P'') := hP'.tolerates_append trivial
        simpa [htol] using hmore
    · intro hz
      simp only [Bool.false_eq_true, if_false]
      refine done ?_ ?_
      · simp only [AlikeVars, List.map_cons, List.map_nil]
        rw [hbare]
      · have htol : Tolerates (Among allMarks) [.semicolon] P' :=
          hP'.tolerates (by simp [allMarks])
        have hmarks : Tolerates (Among allMarks) [.semicolon] [] := by
          simp [allMarks]
        simpa [htol, hmarks, Expectation.accepts] using hled

/-! ## Parameters -/

/-- Parameters of one shape. -/
def AlikeParams (ps ps' : List (Param Nat Tree)) : Prop :=
  ps.map Param.bare = ps'.map Param.bare

theorem retraces_param (C : Nat → Text → Bool) (d : Nat) (x : Symbol) :
    Retraces C d x allMarks Opens (fun p p' => p.bare = p'.bare) param param := by
  refine .bind (retraces_qualifiers C d .none x) fun q q' P hq hP _ y => ?_
  refine .bind (retraces_typeSpec C d y) fun type type' P' htype hP' _ z => next ?_
  have hopens : ∀ P'', Opens (P ++ (P' ++ P'')) := by
    intro P''
    rcases hP.led with rfl | h
    · exact hP'.opens.append
    · exact h.append
  have htol : ∀ {f : Symbol → Prop} P'', Tolerates f allMarks (P' ++ P'') :=
    fun P'' => hP'.opens.append.tolerates
  by_cases hz : z.kind = .identifier
  · simp only [if_pos hz]
    refine take (.of_kind hz (by decide)) fun n n' w => ?_
    refine .bind (retraces_dims C d w) fun dims dims' P'' hdims hP'' _ v => done ?_ ?_
    · simp only [AlikeQualifiers, AlikeType, AlikeDims] at hq htype hdims
      simp only [Param.bare, Param.map, Option.map_some, Name.map, hdims, Param.mk.injEq,
        and_true]
      exact ⟨hq, htype⟩
    · simp only [htol, hopens, tolerates_kept]
      simp
  · simp only [if_neg hz]
    refine done ?_ ?_
    · simp only [AlikeQualifiers, AlikeType] at hq htype
      simp only [Param.bare, Param.map, Param.mk.injEq, and_true]
      exact ⟨hq, htype⟩
    · simp only [htol, hopens]
      simp [allMarks]

theorem retraces_params (C : Nat → Text → Bool) (d : Nat) (x : Symbol) :
    Retraces C d x [.rightParen] Led AlikeParams (run .params) (run .params) := by
  refine recursive .params (fun d ih x => next ?_) d x
  split
  · exact done rfl (by simp [Led])
  · exact done rfl (by simp [Led])
  · exact done rfl (by simp [Led])
  · refine .bind (retraces_param C d x) fun p p' P hp hP _ y => ?_
    refine accept (fun w hw => .of_accepts hw (by decide)) ?_ ?_
    · intro hy z
      simp only [if_true]
      refine .bind (ih z) fun ps ps' P' hps hP' _ w => done ?_ ?_
      · simp only [AlikeParams, List.map_cons] at *
        rw [hp, hps]
      · simp [hP.append.led, hP.append.tolerates]
    · intro hy
      simp only [Bool.false_eq_true, if_false]
      refine done ?_ ?_
      · simp only [AlikeParams, List.map_cons, List.map_nil]
        rw [hp]
      · simp [hP.led, hP.tolerates, allMarks, Expectation.accepts]

/-! ## Members -/

/-- Pieces that begin with a symbol, or a mark that is put in alone. -/
theorem tolerates_end {f : Symbol → Prop} {F : List Kind} {k : Kind} {P P' : List Piece}
    (h : Opens P ∨ P = [.behind k]) (hf : f (Symbol.mark k)) :
    Tolerates f F (P ++ P') := by
  rcases h with h | rfl
  · exact h.append.tolerates
  · exact hf

/-- Members of one shape. -/
def AlikeMembers (ms ms' : List (Member Nat Tree)) : Prop :=
  ms.map Member.bare = ms'.map Member.bare

theorem retraces_member (C : Nat → Text → Bool) (d : Nat) (x : Symbol) :
    Retraces C d x [] Opens (fun m m' => m.bare = m'.bare) member member := by
  refine position fun n n' => ?_
  refine .bind (retraces_qualifiers C d .none x) fun q q' P hq hP _ y => ?_
  refine .bind (retraces_typeSpec C d y) fun type type' P' htype hP' _ z => ?_
  refine .bind (retraces_declarators C d z) fun ds ds' P'' hds hP'' _ w => ?_
  refine .bind statementEnd fun _ _ P₃ _ hP₃ _ v => extentFrom fun X X' => done ?_ ?_
  · simp only [AlikeQualifiers, AlikeType, AlikeDeclarators] at hq htype hds
    simp only [Member.bare, Member.map, Member.mk.injEq]
    exact ⟨rfl, hq, htype, hds⟩
  · have hopens : Opens (P ++ (P' ++ (P'' ++ P₃))) := by
      rcases hP.led with rfl | h
      · exact hP'.opens.append
      · exact h.append
    have hend : Tolerates (Among [.semicolon]) [] (P₃ ++ []) := tolerates_end hP₃.1 (by simp)
    rw [List.append_nil] at hend
    simpa [hP'.opens.append.tolerates, hP''.append.tolerates, hend] using hopens

theorem retraces_members (C : Nat → Text → Bool) (d : Nat) (x : Symbol) :
    Retraces C d x [] Led AlikeMembers (run .members) (run .members) := by
  refine recursive .members (fun d ih x => next ?_) d x
  split
  · exact done rfl (by simp [Led])
  · exact done rfl (by simp [Led])
  · refine .bind (retraces_member C d x) fun m m' P hm hP _ y => ?_
    refine .bind (ih y) fun ms ms' P' hms hP' _ z => done ?_ ?_
    · simp only [AlikeMembers, List.map_cons] at *
      rw [hm, hms]
    · have htol : Tolerates (Among []) [] P' := hP'.tolerates (by simp)
      simp [hP.append.led, hP.append.tolerates, htol]

theorem retraces_memberList (C : Nat → Text → Bool) (d : Nat) (x : Symbol) :
    Retraces C d x allMarks Opens AlikeMembers memberList memberList := by
  refine expect (fun y hy => .of_kind (kind_of_expected hy) (by decide)) fun hx n n' y => ?_
  refine .bind (retraces_members C d y) fun ms ms' P hms hP _ z => ?_
  refine expect (fun w hw => .of_kind (kind_of_expected hw) (by decide)) fun hz n n' w =>
    done hms ?_
  simp

theorem retraces_instances (C : Nat → Text → Bool) (d : Nat) (x : Symbol) :
    Retraces C d x [.semicolon] Led AlikeDeclarators instances instances := by
  refine next ?_
  split
  · refine (retraces_declarators C d x).weaken (fun _ hk => hk) ?_ fun _ _ hq => hq
    exact fun P hP => ⟨hP.led, hP.tolerates⟩
  · exact done rfl (by simp [Led])

end Grammar

end ShaderRepair
