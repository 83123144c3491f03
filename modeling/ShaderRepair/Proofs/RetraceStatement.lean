import ShaderRepair.Proofs.RetraceDeclaration

/-!
# Retracing statements and items

The rules for functions, blocks, statements and items accept again what they have accepted with
repairs. This file contains:
- `Items`, what is said of the rules that call each other here, and one lemma for each of the
  procedures they are made of;
- `items`, the induction on the depth of calls.
-/

namespace ShaderRepair

namespace Grammar

open Piece Procedure Retraces

/-! ## What is said of the rules -/

/-- The second node is the first one after its conversions. -/
def AlikeNode (C : Nat → Text → Bool) (n n' : Item) : Prop :=
  (n.convert C).bare = n'.bare

def AlikeNodes (C : Nat → Text → Bool) (ns ns' : List Item) : Prop :=
  Node.bareAll (Node.convertAll C ns) = Node.bareAll ns'

def AlikeCases (C : Nat → Text → Bool) (cs cs' : List (Case Nat Tree)) : Prop :=
  Case.bareAll (Case.convertAll C cs) = Case.bareAll cs'

/-- What is said of the rules for items and statements, run with calls nested `d` deep. -/
structure Items (C : Nat → Text → Bool) (d : Nat) : Prop where
  item : ∀ x, Retraces C d x [] Opens (AlikeNode C) (run .item) (run .item)
  items : ∀ stop x, Retraces C d x [] Led (AlikeNodes C) (run (.items stop)) (run (.items stop))
  statement : ∀ x, Retraces C d x [] Opens (AlikeNode C) (run .statement) (run .statement)
  cases : ∀ x, Retraces C d x [] Led (AlikeCases C) (run .cases) (run .cases)

variable {C : Nat → Text → Bool} {d : Nat}

/-! ## Declarations without bodies -/

theorem retraces_struct (C : Nat → Text → Bool) (d : Nat) {q q' : Qualifiers Nat Tree}
    {first first' : Nat} (hq : AlikeQualifiers q q') {x : Symbol} (hx : x.kind = .struct) :
    Retraces C d x [] Opens (AlikeNode C) (struct first q) (struct first' q') := by
  refine take (.of_kind hx (by decide)) fun n n' y => next ?_
  -- What comes behind the name.
  have hmore : ∀ {S : List Piece → Prop} (name name' : Option (Name Nat)),
      name.map Name.bare = name'.map Name.bare → (∀ P, Opens P → S P) → ∀ z,
      Retraces C d z [] S (AlikeNode C)
        (memberList >>= fun ms => instances >>= fun ds => Procedure.statementEnd >>= fun _ =>
          Procedure.extentFrom first >>= fun X => pure (.struct X q name ms ds))
        (memberList >>= fun ms => instances >>= fun ds => Procedure.statementEnd >>= fun _ =>
          Procedure.extentFrom first' >>= fun X => pure (.struct X q' name' ms ds)) := by
    intro S name name' hname hS z
    refine .bind (retraces_memberList C d z) fun ms ms' P hms hP _ w => ?_
    refine .bind (retraces_instances C d w) fun ds ds' P' hds hP' _ v => ?_
    refine .bind statementEnd fun _ _ P'' _ hP'' _ u => extentFrom fun X X' => done ?_ ?_
    · simp only [AlikeQualifiers, AlikeMembers, AlikeDeclarators] at hq hms hds
      simp only [AlikeNode, Node.convert, Node.bare, Node.map, Node.struct.injEq]
      exact ⟨rfl, hq, hname, hms, hds⟩
    · have hend : ∀ {f : Symbol → Prop} {P₃ : List Piece}, f (Symbol.mark .semicolon) →
          Tolerates f [] (P'' ++ P₃) := fun hf => tolerates_end hP''.1 hf
      refine ⟨⟨⟨hS _ hP.append, ?_⟩, ?_⟩, ?_⟩
      · exact hP'.tolerates_append (hend (by simp [allMarks]))
      · exact hend (by simp)
      · simp
  by_cases hy : y.kind = .identifier
  · simp only [if_pos hy]
    simp only [map_eq_pure_bind, bind_assoc, pure_bind]
    refine take (.of_kind hy (by decide)) fun n n' z => ?_
    refine hmore (some ⟨y.lexeme, n⟩) (some ⟨y.lexeme, n'⟩) rfl ?_ z
    intro P hP
    simp
  · simp only [if_neg hy, pure_bind]
    refine hmore none none rfl ?_ y
    intro P hP
    simp [hP.tolerates]

theorem retraces_interface (C : Nat → Text → Bool) (d : Nat) {q q' : Qualifiers Nat Tree}
    {first first' : Nat} (hq : AlikeQualifiers q q') {x : Symbol} (hx : x.kind = .identifier) :
    Retraces C d x [] (fun P => ∃ P', P = .kept x :: P' ∧ Opens P') (AlikeNode C)
      (interface first q) (interface first' q') := by
  refine take (.of_kind hx (by decide)) fun n n' y => ?_
  refine .bind (retraces_memberList C d y) fun ms ms' P hms hP _ w => ?_
  refine .bind (retraces_instances C d w) fun ds ds' P' hds hP' _ v => ?_
  refine .bind statementEnd fun _ _ P'' _ hP'' _ u => extentFrom fun X X' => done ?_ ?_
  · simp only [AlikeQualifiers, AlikeMembers, AlikeDeclarators] at hq hms hds
    simp only [AlikeNode, Node.convert, Node.bare, Node.map, Node.interface.injEq]
    exact ⟨rfl, hq, rfl, hms, hds⟩
  · refine ⟨⟨⟨⟨_, rfl, hP.append⟩, ?_⟩, ?_⟩, ?_⟩
    · exact hP'.tolerates_append (tolerates_end hP''.1 (by simp [allMarks]))
    · exact tolerates_end hP''.1 (by simp)
    · simp

theorem retraces_precision (C : Nat → Text → Bool) (d : Nat) {x : Symbol}
    (hx : x.kind = .precision) : Retraces C d x [] Opens (AlikeNode C) precision precision := by
  refine take (.of_kind hx (by decide)) fun n n' y => next ?_
  refine expect (fun z hz => .of_kind (kind_of_expected hz) (by decide)) fun hy n n' z => ?_
  split
  · refine .bind (retraces_typeSpec C d z) fun type type' P htype hP _ w => ?_
    refine .bind statementEnd fun _ _ P' _ hP' _ v => extentFrom fun X X' => done ?_ ?_
    · exact congrArg (Node.precision _ _) htype
    · refine ⟨⟨?_, tolerates_end hP'.1 (by simp [allMarks])⟩, by simp⟩
      exact ⟨opens_kept, trivial⟩
  · exact reject

/-! ## Functions -/

theorem retraces_block (h : Items C d) (x : Symbol) :
    Retraces C d x allMarks Opens (fun b b' => AlikeNodes C b.2 b'.2) block block := by
  refine expect (fun y hy => .of_kind (kind_of_expected hy) (by decide)) fun hx n n' y => ?_
  refine .bind (h.items .brace y) fun ns ns' P hns hP _ z => ?_
  refine expect (fun w hw => .of_kind (kind_of_expected hw) (by decide)) fun hz n n' w => ?_
  refine extentFrom fun X X' => done hns ?_
  simp

/-- Signatures of one shape. -/
def AlikeSignature (s s' : Signature Nat Tree) : Prop :=
  s.bare = s'.bare

theorem retraces_function (h : Items C d) {q q' : Qualifiers Nat Tree}
    {type type' : TypeSpec Nat Tree} (name name' : Name Nat) (first first' : Nat)
    (hq : AlikeQualifiers q q') (htype : AlikeType type type') (hname : name.text = name'.text)
    {x : Symbol} (hx : x.kind = .leftParen) :
    Retraces C d x [] Opens (AlikeNode C) (function first q type name)
      (function first' q' type' name') := by
  refine take (.of_kind hx (by decide)) fun n n' y => ?_
  refine .bind (retraces_params C d y) fun ps ps' P hps hP _ z => ?_
  refine .bind (orMissing rfl) fun _ _ P' _ hP' _ w => next ?_
  have hsignature : AlikeSignature ⟨q, type, name, ps⟩ ⟨q', type', name', ps'⟩ := by
    simp only [AlikeQualifiers, AlikeType, AlikeParams] at hq htype hps
    simp only [AlikeSignature, Signature.bare, Signature.map, Signature.mk.injEq, Name.map, hname,
      true_and]
    exact ⟨hq, htype, hps⟩
  have hparen : ∀ {P'' : List Piece}, Tolerates (Among [.rightParen]) [] (P' ++ P'') :=
    hP'.tolerates_append (by simp)
  by_cases hw : w.kind = .leftBrace
  · simp only [if_pos hw]
    refine .bind (retraces_block h w) ?_
    rintro ⟨Y, ns⟩ ⟨Y', ns'⟩ P'' hb hP'' - v
    refine extentFrom fun X X' => done ?_ ?_
    · simp only [AlikeNode, Node.convert, Node.bare, Node.map, Node.function.injEq]
      exact ⟨rfl, hsignature, rfl, hb⟩
    · refine ⟨⟨⟨⟨opens_kept, hparen⟩, ?_⟩, ?_⟩, by simp⟩
      · exact hP''.append.tolerates
      · exact hP''.append.tolerates
  · simp only [if_neg hw]
    refine .bind statementEnd fun _ _ P'' _ hP'' _ v => extentFrom fun X X' => done ?_ ?_
    · simp only [AlikeNode, Node.convert, Node.bare, Node.map, Node.prototype.injEq]
      exact ⟨rfl, hsignature⟩
    · refine ⟨⟨⟨⟨opens_kept, hparen⟩, ?_⟩, ?_⟩, by simp⟩
      · exact tolerates_end hP''.1 (by simp [allMarks])
      · exact tolerates_end hP''.1 (by simp)

/-- A declaration from its type on. The second run sees a declaration too. -/
theorem retraces_typed (h : Items C d) {q q' : Qualifiers Nat Tree} {first first' : Nat}
    (hq : AlikeQualifiers q q') (x : Symbol) :
    Retraces C d x [] (fun P => Declares P ∧ ∃ y z P', P = .kept y :: P' ∧ Led z ∧
      (∃ w P'', P' = z ++ .kept w :: P'')) (AlikeNode C) (typed first q) (typed first' q') := by
  refine .bind (retraces_typeSpec C d x) fun type type' P htype hP _ y => ?_
  refine expect (fun z hz => .of_kind (kind_of_expected hz) (by decide)) fun hy n n' z => next ?_
  have hname : y.kind = .identifier := kind_of_expected hy
  have hS : ∀ {P' : List Piece}, Declares (P ++ .kept y :: P') ∧ ∃ u v Q, P ++ .kept y :: P' =
      .kept u :: Q ∧ Led v ∧ ∃ w P'', Q = v ++ .kept w :: P'' := by
    intro P'
    refine ⟨hP.declares hname, ?_⟩
    obtain ⟨u, v, rfl, -, hv, -⟩ := hP
    exact ⟨u, v, _, rfl, hv, y, P', rfl⟩
  by_cases hz : z.kind = .leftParen
  · simp only [if_pos hz]
    have hfunction := retraces_function h ⟨y.lexeme, n⟩ ⟨y.lexeme, n'⟩ first first' hq htype rfl hz
    refine hfunction.weaken (fun _ hk => hk) ?_ fun _ _ hq => hq
    exact fun P' hP' => ⟨⟨hS, trivial⟩, hP'.tolerates⟩
  · simp only [if_neg hz]
    have hvars := retraces_vars C d ⟨y.lexeme, n⟩ ⟨y.lexeme, n'⟩ htype rfl z
    refine .bind hvars fun ds ds' P' hds hP' _ w => ?_
    refine .bind statementEnd fun _ _ P'' _ hP'' _ v => extentFrom fun X X' => done ?_ ?_
    · simp only [AlikeQualifiers, AlikeType, AlikeVars] at hq htype hds
      simp only [AlikeNode, Node.convert, Node.bare, Node.map, Node.vars.injEq,
        Variables.convert, Variables.map, Variables.mk.injEq]
      exact ⟨rfl, hq, htype, hds⟩
    · refine ⟨⟨⟨⟨hS, trivial⟩, ?_⟩, ?_⟩, by simp⟩
      · exact hP'.tolerates_append (tolerates_end hP''.1 (by simp))
      · exact tolerates_end hP''.1 (by simp)

/-- Names after qualifiers. -/
theorem retraces_qualifiedNames (C : Nat → Text → Bool) (d : Nat) {q q' : Qualifiers Nat Tree}
    {first first' : Nat} (hq : AlikeQualifiers q q') (x : Symbol) :
    Retraces C d x []
      (fun P => ∃ y P', P = .kept y :: P' ∧
        ∀ f : Symbol → Prop, f (Symbol.mark .semicolon) → Tolerates f [] P') (AlikeNode C)
      (run .names >>= fun ns => Procedure.statementEnd >>= fun _ =>
        Procedure.extentFrom first >>= fun X => pure (.qualifiers X q ns))
      (run .names >>= fun ns => Procedure.statementEnd >>= fun _ =>
        Procedure.extentFrom first' >>= fun X => pure (.qualifiers X q' ns)) := by
  refine .bind (retraces_names C d x) ?_
  rintro ns ns' P hns ⟨y, P', rfl, hP'⟩ - z
  refine .bind statementEnd fun _ _ P'' _ hP'' _ w => extentFrom fun X X' => done ?_ ?_
  · simp only [AlikeNode, Node.convert, Node.bare, Node.map, Node.qualifiers.injEq]
    exact ⟨rfl, hq, hns⟩
  · refine ⟨⟨⟨y, _, rfl, fun f hf => ?_⟩, ?_⟩, by simp⟩
    · exact hP'.tolerates_append (tolerates_end hP''.1 hf)
    · exact tolerates_end hP''.1 (by simp)

/-- A declaration that begins with qualifiers is told apart by the next two symbols. -/
theorem retraces_qualified (h : Items C d) (x : Symbol) :
    Retraces C d x [] Opens (AlikeNode C) qualified qualified := by
  refine position fun n n' => ?_
  refine .bind (retraces_qualifiers C d .none x) fun q q' P hq hP _ y => next ?_
  have hopens : ∀ {P' : List Piece}, Opens P' → Opens (P ++ P') := by
    intro P' hP'
    rcases hP.led with rfl | hP
    · exact hP'
    · exact hP.append
  split
  · next hy =>
    refine (retraces_struct C d hq hy).weaken (fun _ hk => hk) ?_ fun _ _ hq => hq
    exact fun P' hP' => ⟨⟨hopens hP', hP'.tolerates⟩, hP'.tolerates⟩
  · next hy =>
    -- The semicolon is there, since it decided.
    refine .bind statementEnd fun _ _ P' _ hP' _ z => extentFrom fun X X' => done ?_ ?_
    · simp only [AlikeNode, Node.convert, Node.bare, Node.map, Node.qualifiers.injEq]
      exact ⟨rfl, hq, trivial⟩
    · have hP'' := hP'.2 hy
      exact ⟨⟨⟨hopens hP''.append, hP''.append.tolerates⟩, hP''.append.tolerates⟩, by simp⟩
  · next hy =>
    refine second fun z => ?_
    split
    · refine (retraces_interface C d hq hy).weaken (fun _ hk => hk) ?_ fun _ _ hq => hq
      rintro P' ⟨P'', rfl, hP''⟩
      exact ⟨⟨⟨hopens opens_kept, trivial⟩, trivial⟩, y, P'', rfl, hP''.tolerates⟩
    · refine (retraces_qualifiedNames C d hq y).weaken (fun _ hk => hk) ?_ fun _ _ hq => hq
      rintro P' ⟨u, P'', rfl, hP''⟩
      exact ⟨⟨⟨hopens opens_kept, trivial⟩, trivial⟩, u, P'', rfl, hP'' _ rfl⟩
    · refine (retraces_qualifiedNames C d hq y).weaken (fun _ hk => hk) ?_ fun _ _ hq => hq
      rintro P' ⟨u, P'', rfl, hP''⟩
      exact ⟨⟨⟨hopens opens_kept, trivial⟩, trivial⟩, u, P'', rfl, hP'' _ rfl⟩
    · refine (retraces_typed h hq y).weaken (fun _ hk => hk) ?_ fun _ _ hq => hq
      rintro P' ⟨-, u, v, Q, rfl, hv, w, P'', rfl⟩
      exact ⟨⟨⟨hopens opens_kept, trivial⟩, trivial⟩, u, _, rfl, hv.tolerates_append trivial⟩
  · exact position fun n n' => reject

/-! ## Conditions and branches -/

theorem retraces_condition (C : Nat → Text → Bool) (d : Nat) (x : Symbol) :
    Retraces C d x allMarks (fun _ => True) Alike condition condition := by
  refine leftParen (fun _ => trivial) (fun e y => (blind_run e rfl y).bind) fun y => ?_
  refine .bind ((expressions C d).expression y) fun e e' P he hP _ z => ?_
  refine .bind (orMissing rfl) fun _ _ P' _ hP' _ w => done he ?_
  have htol : Tolerates (Among sequenceMarks) allMarks (P' ++ []) :=
    hP'.tolerates_append (by simp [sequenceMarks])
  exact ⟨⟨hP.1.opens.append, htol⟩, by simp⟩

theorem retraces_if (h : Items C d) {x : Symbol} (hx : x.kind = .if) :
    Retraces C d x [] Opens (AlikeNode C) ifStatement ifStatement := by
  refine take (.of_kind hx (by decide)) fun n n' y => ?_
  refine .bind (retraces_condition C d y) fun c c' P hc _ _ z => ?_
  refine .bind (h.statement z) fun yes yes' P' hyes hP' _ w => ?_
  refine accept (fun v hv => .of_accepts hv (by decide)) ?_ ?_
  · intro hw v
    simp only [if_true]
    refine .bind (h.statement v) fun no no' P'' hno hP'' _ u => extentFrom fun X X' => done ?_ ?_
    · simp only [AlikeNode, Node.convert, Node.bare, Node.map, Node.ifElse.injEq]
      exact ⟨rfl, hc, hyes, hno⟩
    · simp [hP'.append.tolerates]
  · intro hw
    simp only [Bool.false_eq_true, if_false]
    refine extentFrom fun X X' => done ?_ ?_
    · simp only [AlikeNode, Node.convert, Node.bare, Node.map, Node.ifThen.injEq]
      exact ⟨rfl, hc, hyes⟩
    · simp [hP'.tolerates]

theorem retraces_cases_body (h : Items C d) (x : Symbol) :
    Retraces C d x [] Led (AlikeCases C) cases cases := by
  refine next ?_
  -- What comes behind the label.
  have hmore : ∀ {S : List Piece → Prop} {o o' : Option Tree} {m m' : Nat}, AlikeOption o o' →
      (∀ P, Opens P ∨ (∃ P', P = .behind .colon :: P') → S P) → ∀ z,
      Retraces C d z [] S (AlikeCases C)
        (colon >>= fun _ => run (.items .label) >>= fun body =>
          Procedure.extentFrom m >>= fun X => run .cases >>= fun more =>
            pure (.mk X o body :: more))
        (colon >>= fun _ => run (.items .label) >>= fun body =>
          Procedure.extentFrom m' >>= fun X => run .cases >>= fun more =>
            pure (.mk X o' body :: more)) := by
    intro S o o' m m' ho hS z
    refine .bind (orMissing rfl) fun _ _ P _ hP _ w => ?_
    refine .bind (h.items .label w) fun body body' P' hbody hP' _ v => ?_
    refine extentFrom fun X X' => ?_
    refine .bind (h.cases v) fun cs cs' P'' hcs hP'' _ u => done ?_ ?_
    · simp only [AlikeCases, Case.convertAll, Case.convert, Case.bareAll, Case.mapAll, Case.map,
        List.cons.injEq, Case.mk.injEq]
      exact ⟨⟨rfl, ho, hbody⟩, hcs⟩
    · have hmarked : Opens (P ++ (P' ++ (P'' ++ []))) ∨
          ∃ Q, P ++ (P' ++ (P'' ++ [])) = .behind .colon :: Q := by
        rcases hP with ⟨y, -, rfl⟩ | rfl
        · exact .inl opens_kept
        · exact .inr ⟨_, rfl⟩
      refine ⟨⟨⟨hS _ hmarked, ?_⟩, ?_⟩, by simp⟩
      · exact hP'.tolerates_append (hP''.tolerates_append (by simp))
      · exact hP''.tolerates_append (by simp)
  split
  · exact done rfl (by simp [Led])
  · exact done rfl (by simp [Led])
  · refine expect (fun y hy => .of_any hy (by decide)) fun hx n n' y => ?_
    by_cases hcase : x.kind = .case
    · simp only [if_pos hcase]
      refine .bind (retraces_some ((expressions C d).expression y)) ?_
      intro o o' P ho hP _ z
      refine hmore ho ?_ z
      intro P' hP'
      refine ⟨⟨opens_kept.led, trivial⟩, ?_⟩
      rcases hP' with hP' | ⟨Q, rfl⟩
      · exact hP'.tolerates
      · exact among_mark.2 (by simp [sequenceMarks])
    · simp only [if_neg hcase, pure_bind]
      refine hmore rfl ?_ y
      exact fun P' hP' => ⟨opens_kept.led, trivial⟩

theorem retraces_switch (h : Items C d) {x : Symbol} (hx : x.kind = .switch) :
    Retraces C d x [] Opens (AlikeNode C) switchStatement switchStatement := by
  refine take (.of_kind hx (by decide)) fun n n' y => ?_
  refine .bind (retraces_condition C d y) fun c c' P hc _ _ z => ?_
  refine expect (fun w hw => .of_kind (kind_of_expected hw) (by decide)) fun hz n n' w => ?_
  refine .bind (h.cases w) fun cs cs' P' hcs hP' _ v => ?_
  refine expect (fun u hu => .of_kind (kind_of_expected hu) (by decide)) fun hv n n' u => ?_
  refine extentFrom fun X X' => done ?_ ?_
  · simp only [AlikeNode, Node.convert, Node.bare, Node.map, Node.switch.injEq]
    exact ⟨rfl, hc, hcs⟩
  · simp

/-! ## Loops -/

theorem retraces_while (h : Items C d) {x : Symbol} (hx : x.kind = .while) :
    Retraces C d x [] Opens (AlikeNode C) whileStatement whileStatement := by
  refine take (.of_kind hx (by decide)) fun n n' y => ?_
  refine .bind (retraces_condition C d y) fun c c' P hc _ _ z => ?_
  refine .bind (h.statement z) fun body body' P' hbody hP' _ w => extentFrom fun X X' => done ?_ ?_
  · simp only [AlikeNode, Node.convert, Node.bare, Node.map, Node.whileLoop.injEq]
    exact ⟨rfl, hc, hbody⟩
  · simp [hP'.tolerates]

theorem retraces_do (h : Items C d) {x : Symbol} (hx : x.kind = .do) :
    Retraces C d x [] Opens (AlikeNode C) doStatement doStatement := by
  refine take (.of_kind hx (by decide)) fun n n' y => ?_
  refine .bind (h.statement y) fun body body' P hbody hP _ z => ?_
  refine expect (fun w hw => .of_kind (kind_of_expected hw) (by decide)) fun hz n n' w => ?_
  refine .bind (retraces_condition C d w) fun c c' P' hc _ _ v => ?_
  refine .bind statementEnd fun _ _ P'' _ hP'' _ u => extentFrom fun X X' => done ?_ ?_
  · simp only [AlikeNode, Node.convert, Node.bare, Node.map, Node.doWhile.injEq]
    exact ⟨rfl, hbody, hc⟩
  · refine ⟨⟨⟨opens_kept, trivial⟩, ?_⟩, by simp⟩
    exact tolerates_end hP''.1 (by simp [allMarks])

/-- The second clause is the first one after its conversions. -/
def AlikeInit (C : Nat → Text → Bool) (i i' : ForInit Nat Tree) : Prop :=
  (i.convert C).bare = i'.bare

theorem retraces_forInit (C : Nat → Text → Bool) (d : Nat) (x : Symbol) :
    Retraces C d x allMarks Opens (AlikeInit C) forInit forInit := by
  refine position fun n n' => next (ahead fun b hb => ?_)
  by_cases hsemicolon : x.kind = .semicolon
  · -- An empty clause.
    simp only [if_pos hsemicolon]
    refine take (.of_kind hsemicolon (by decide)) fun n n' y => done rfl ?_
    have hfalse : b ≠ true := by
      intro h
      rw [hsemicolon] at hb
      cases hb h
    simp [hfalse]
  simp only [if_neg hsemicolon]
  by_cases hdeclared : (decide (x.kind = .qualifier) || b) = true
  · -- Variables, after a qualifier or where the lookahead has found a declaration.
    simp only [if_pos hdeclared]
    refine .bind (retraces_qualifiers C d .none x) fun q q' P hq hP hfirst y => ?_
    refine .bind (retraces_typeSpec C d y) fun type type' P' htype hP' _ z => ?_
    refine expect (fun w hw => .of_kind (kind_of_expected hw) (by decide)) fun hz m m' w => ?_
    have hvars := retraces_vars C d ⟨z.lexeme, m⟩ ⟨z.lexeme, m'⟩ htype rfl w
    refine .bind hvars fun ds ds' P'' hds hP'' _ v => extentFrom fun X X' => ?_
    refine .bind (orMissing rfl) fun _ _ P₃ _ hP₃ _ u => done ?_ ?_
    · simp only [AlikeQualifiers, AlikeType, AlikeVars] at hq htype hds
      simp only [AlikeInit, ForInit.convert, ForInit.bare, ForInit.map, ForInit.vars.injEq,
        Variables.convert, Variables.map, Variables.mk.injEq]
      exact ⟨rfl, hq, htype, hds⟩
    · have hopens : Opens (P ++ (P' ++ .kept z :: (P'' ++ (P₃ ++ [])))) := by
        rcases hP.led with rfl | hP
        · exact hP'.opens.append
        · exact hP.append
      have hdeclares : b = true → Declares (P ++ (P' ++ .kept z :: (P'' ++ (P₃ ++ [])))) := by
        intro h
        rcases hP with rfl | ⟨y, Q, rfl, hy⟩
        · exact hP'.declares (kind_of_expected hz)
        · -- The first symbol cannot be both a type and a qualifier.
          rw [hfirst y Q rfl, hb h] at hy
          rcases hy with hy | hy <;> cases hy
      refine ⟨⟨⟨⟨⟨⟨hopens, hopens.tolerates⟩, hdeclares⟩, hP'.opens.append.tolerates⟩, trivial⟩,
        ?_⟩, by simp⟩
      exact hP₃.tolerates_append (by simp)
  · -- An expression.
    simp only [if_neg hdeclared]
    have hfalse : b ≠ true := by
      rintro rfl
      simp at hdeclared
    refine .bind ((expressions C d).expression x) fun e e' P he hP _ y => extentFrom fun X X' => ?_
    refine .bind (orMissing rfl) fun _ _ P' _ hP' _ z => done ?_ ?_
    · simp only [AlikeInit, ForInit.convert, ForInit.bare, ForInit.map, ForInit.expression.injEq]
      exact ⟨rfl, he⟩
    · have htol : Tolerates (Among sequenceMarks) allMarks (P' ++ []) :=
        hP'.tolerates_append (by simp [sequenceMarks])
      have hopens : Opens (P ++ (P' ++ [])) := hP.1.opens.append
      exact ⟨⟨⟨⟨hopens, hopens.tolerates⟩, fun h => absurd h hfalse⟩, htol⟩, by simp⟩

/-- A condition of a for statement. -/
theorem retraces_forCondition (C : Nat → Text → Bool) (d : Nat) (x : Symbol) :
    Retraces C d x allMarks Opens AlikeOption forCondition forCondition := by
  refine accept (fun y hy => .of_accepts hy (by decide)) ?_ ?_
  · intro hx y
    simp only [if_true]
    exact done rfl opens_kept
  · intro hx
    simp only [Bool.false_eq_true, if_false]
    refine .bind ((expressions C d).expression x) fun e e' P he hP _ y => ?_
    refine .bind (orMissing rfl) fun _ _ P' _ hP' _ z => done (congrArg some he) ?_
    have htol : Tolerates (Among sequenceMarks) allMarks (P' ++ []) :=
      hP'.tolerates_append (by simp [sequenceMarks])
    exact ⟨⟨⟨hP.1.opens.append, hP.1.opens.append.tolerates⟩, htol⟩, by simp⟩

/-- The last clause of a for statement, perhaps only the parenthesis that is put in. -/
theorem retraces_forUpdate (C : Nat → Text → Bool) (d : Nat) (x : Symbol) :
    Retraces C d x allMarks (fun P => Opens P ∨ P = [.behind .rightParen]) AlikeOption
      forUpdate forUpdate := by
  refine next ?_
  have hmarked : ∀ {P : List Piece}, Marked .rightParen P →
      Opens (P ++ []) ∨ P ++ [] = [.behind .rightParen] := by
    rintro P (⟨y, -, rfl⟩ | rfl)
    · exact .inl opens_kept
    · exact .inr rfl
  split
  · refine .bind (orMissing rfl) fun _ _ P _ hP _ z => done rfl ?_
    exact ⟨⟨hmarked hP, hP.tolerates_append (by simp)⟩, by simp⟩
  · refine .bind (orMissing rfl) fun _ _ P _ hP _ z => done rfl ?_
    exact ⟨⟨hmarked hP, hP.tolerates_append (by simp)⟩, by simp⟩
  · refine .bind ((expressions C d).expression x) fun e e' P he hP _ y => ?_
    refine .bind (orMissing rfl) fun _ _ P' _ hP' _ z => done (congrArg some he) ?_
    have htol : Tolerates (Among sequenceMarks) allMarks (P' ++ []) :=
      hP'.tolerates_append (by simp [sequenceMarks])
    exact ⟨⟨⟨.inl hP.1.opens.append, hP.1.opens.append.tolerates⟩, htol⟩, by simp⟩

/-- Qualifiers are read or there are none; a line break before them does not matter if it does not
matter to what comes next. -/
theorem blind_qualifiers {α : Type} (e : Nat) (x : Symbol) {found : Qualifiers Nat Tree}
    {k : Qualifiers Nat Tree → Procedure α} (hk : ∀ q, Blind (Rule.run e) x (k q)) :
    Blind (Rule.run e) x (run (.qualifiers found) >>= k) := by
  cases e with
  | zero =>
    intro s t more a hs hp
    cases hp
  | succ e =>
    intro s t more a hs hp
    obtain ⟨q, m, hq, hp⟩ := exec_bind_accepted.1 hp
    have hnext : s.next = x := by simp [State.next, hs]
    by_cases hx : x.kind = .layout ∨ x.kind = .qualifier
    · -- The symbol is taken here.
      have hblind : Blind (Rule.run e) x (qualifiers found) := by
        refine Blind.next rfl ?_
        split
        · exact Blind.take.bind
        · exact Blind.take.bind
        · simp_all
      refine exec_bind_accepted.2 ⟨q, m, ?_, hp⟩
      rw [exec_run_succ] at hq ⊢
      exact hblind hs hq
    · -- Nothing is read here, so the symbol is left to what comes next.
      have hnone : ∀ u : State, u.next.kind = x.kind →
          (run (.qualifiers found)).exec (Rule.run (e + 1)) u = .accepted found u := by
        intro u hu
        rw [exec_run_succ]
        change (qualifiers found).exec (Rule.run e) u = _
        rw [qualifiers, exec_bind, exec_next]
        simp only
        split
        · simp_all
        · simp_all
        · rfl
      rw [hnone s (by rw [hnext])] at hq
      cases hq
      exact exec_bind_accepted.2 ⟨found, _, hnone _ rfl, hk found hs hp⟩

theorem blind_forInit (e : Nat) (x : Symbol) : Blind (Rule.run e) x forInit := by
  refine Blind.position fun n => Blind.next rfl (Blind.ahead fun b => ?_)
  by_cases hsemicolon : x.kind = .semicolon
  · simp only [if_pos hsemicolon]
    exact Blind.take.bind
  simp only [if_neg hsemicolon]
  split
  · exact blind_qualifiers e x fun q => Blind.expect.bind.bind
  · exact (blind_run e rfl x).bind

theorem retraces_for (h : Items C d) {x : Symbol} (hx : x.kind = .for) :
    Retraces C d x [] Opens (AlikeNode C) forStatement forStatement := by
  refine take (.of_kind hx (by decide)) fun n n' y => ?_
  refine leftParen (fun _ => opens_kept) (fun e y => (blind_forInit e y).bind) fun y => ?_
  refine .bind (retraces_forInit C d y) fun i i' P hi hP _ z => ?_
  refine .bind (retraces_forCondition C d z) fun c c' P' hc hP' _ w => ?_
  refine .bind (retraces_forUpdate C d w) fun u u' P'' hu hP'' _ v => ?_
  refine .bind (h.statement v) fun body body' P₃ hbody hP₃ _ t => extentFrom fun X X' => done ?_ ?_
  · simp only [AlikeNode, Node.convert, Node.bare, Node.map, Node.forLoop.injEq]
    exact ⟨rfl, hi, hc, hu, hbody⟩
  · refine ⟨⟨⟨⟨hP.append, hP'.append.tolerates⟩, ?_⟩, hP₃.append.tolerates⟩, by simp⟩
    exact tolerates_end hP'' (by simp [allMarks])

/-! ## Other statements -/

theorem retraces_return (C : Nat → Text → Bool) (d : Nat) {x : Symbol} (hx : x.kind = .return) :
    Retraces C d x [] Opens (AlikeNode C) returnStatement returnStatement := by
  refine take (.of_kind hx (by decide)) fun n n' y => next ?_
  -- What comes behind the value, if there is one.
  have hmore : ∀ {S : List Piece → Prop} (o o' : Option Tree), AlikeOption o o' →
      (∀ P, Opens P ∨ P = [.behind .semicolon] → S P) → ∀ z,
      Retraces C d z [] S (AlikeNode C)
        (Procedure.statementEnd >>= fun _ =>
          Procedure.extentFrom n >>= fun X => pure (.return X o))
        (Procedure.statementEnd >>= fun _ =>
          Procedure.extentFrom n' >>= fun X => pure (.return X o')) := by
    intro S o o' ho hS z
    refine .bind statementEnd fun _ _ P _ hP _ w => extentFrom fun X X' => done ?_ ?_
    · simp only [AlikeNode, Node.convert, Node.bare, Node.map, Node.return.injEq]
      exact ⟨rfl, ho⟩
    · refine ⟨hS _ ?_, by simp⟩
      rw [List.append_nil]
      exact hP.1
  have hnone : ∀ {f : Symbol → Prop}, f (Symbol.mark .semicolon) → ∀ P : List Piece,
      Opens P ∨ P = [.behind .semicolon] → Opens (.kept x :: P) ∧ Tolerates f [] P := by
    intro f hf P hP
    have hend : Tolerates f [] (P ++ []) := tolerates_end hP hf
    rw [List.append_nil] at hend
    exact ⟨opens_kept, hend⟩
  split
  · simp only [pure_bind]
    refine hmore none none rfl ?_ y
    exact hnone rfl
  · simp only [pure_bind]
    refine hmore none none rfl ?_ y
    exact hnone rfl
  · simp only [pure_bind]
    refine hmore none none rfl ?_ y
    exact hnone rfl
  · split
    · simp only [pure_bind]
      refine hmore none none rfl ?_ y
      exact hnone rfl
    · refine .bind (retraces_some ((expressions C d).expression y)) fun o o' P ho hP _ z => ?_
      refine hmore o o' ho ?_ z
      intro P' hP'
      refine ⟨⟨opens_kept, hP.1.opens.append.tolerates⟩, ?_⟩
      have hend : Tolerates (Among sequenceMarks) [] (P' ++ []) :=
        tolerates_end hP' (by simp [sequenceMarks])
      rwa [List.append_nil] at hend

theorem retraces_word (node : Extent Nat → Item)
    (hnode : ∀ X X', AlikeNode C (node X) (node X')) {x : Symbol} (hx : Passable x) :
    Retraces C d x [] Opens (AlikeNode C) (wordStatement node) (wordStatement node) := by
  refine take hx fun n n' y => ?_
  refine .bind statementEnd fun _ _ P _ hP _ z => extentFrom fun X X' => done (hnode X X') ?_
  exact ⟨opens_kept, by simp⟩

/-! ## Items -/

/-- Looking at the symbol ahead costs nothing before a rule that keeps it: what is put in comes
behind that symbol. -/
theorem Retraces.tolerated {α β : Type} {x : Symbol} {f : Symbol → Prop} {Q : α → β → Prop}
    {p : Procedure α} {p' : Procedure β} (h : Retraces C d x [] Opens Q p p') :
    Retraces C d x [] (fun P => Opens P ∧ Tolerates f [] P) Q p p' :=
  h.weaken (fun _ hk => hk) (fun _ hP => ⟨hP, hP.tolerates⟩) fun _ _ hq => hq

namespace Items

theorem statement_body (h : Items C d) (x : Symbol) :
    Retraces C d x [] Opens (AlikeNode C) Grammar.statement Grammar.statement := by
  refine position fun n n' => next ?_
  split
  · refine .bind (retraces_block h x) ?_
    rintro ⟨Y, ns⟩ ⟨Y', ns'⟩ P hns hP - y
    refine done ?_ ?_
    · simp only [AlikeNode, Node.convert, Node.bare, Node.map, Node.block.injEq]
      exact ⟨rfl, hns⟩
    · exact ⟨⟨hP.append, hP.append.tolerates⟩, by simp⟩
  · next hx => exact (retraces_if h hx).tolerated
  · next hx => exact (retraces_switch h hx).tolerated
  · next hx => exact (retraces_for h hx).tolerated
  · next hx => exact (retraces_while h hx).tolerated
  · next hx => exact (retraces_do h hx).tolerated
  · next hx => exact (retraces_return C d hx).tolerated
  · next hx =>
    have hpass : Passable x := .of_kind hx (by decide)
    exact (retraces_word .break (fun _ _ => rfl) hpass).tolerated
  · next hx =>
    have hpass : Passable x := .of_kind hx (by decide)
    exact (retraces_word .continue (fun _ _ => rfl) hpass).tolerated
  · next hx =>
    have hpass : Passable x := .of_kind hx (by decide)
    exact (retraces_word .discard (fun _ _ => rfl) hpass).tolerated
  · next hx =>
    refine take (.of_kind hx (by decide)) fun n n' y => extentFrom fun X X' => done rfl ?_
    exact ⟨opens_kept, opens_kept.tolerates⟩
  · refine .bind ((expressions C d).expression x) fun e e' P he hP _ y => ?_
    refine .bind Retraces.statementEnd fun _ _ P' _ hP' _ z => extentFrom fun X X' => done ?_ ?_
    · simp only [AlikeNode, Node.convert, Node.bare, Node.map, Node.expression.injEq]
      exact ⟨rfl, he⟩
    · have hopens : Opens (P ++ (P' ++ [])) := hP.1.opens.append
      refine ⟨⟨⟨hopens, hopens.tolerates⟩, ?_⟩, by simp⟩
      exact tolerates_end hP'.1 (by simp [sequenceMarks])

/-- An identifier starts a declaration in both runs or in neither. -/
theorem item_body (h : Items C d) (x : Symbol) :
    Retraces C d x [] Opens (AlikeNode C) Grammar.item Grammar.item := by
  refine position fun n n' => next ?_
  split
  · next hx => exact (retraces_precision C d hx).tolerated
  · exact (retraces_qualified h x).tolerated
  · exact (retraces_qualified h x).tolerated
  · next hx => exact (retraces_struct C d .none hx).tolerated
  · refine ahead fun b hb => ?_
    cases b with
    | true =>
      simp only [if_true]
      refine (retraces_typed h .none x).weaken (fun _ hk => hk) ?_ fun _ _ hq => hq
      rintro P ⟨hdeclares, y, z, P', rfl, -⟩
      exact ⟨⟨opens_kept, opens_kept.tolerates⟩, fun _ => hdeclares⟩
    | false =>
      simp only [Bool.false_eq_true, if_false]
      refine (h.statement x).weaken (fun _ hk => hk) ?_ fun _ _ hq => hq
      exact fun P hP => ⟨⟨hP, hP.tolerates⟩, fun hfalse => by cases hfalse⟩
  · exact (h.statement x).tolerated

theorem items_body (h : Items C d) (stop : Stop) (x : Symbol) :
    Retraces C d x [] Led (AlikeNodes C) (Grammar.items stop) (Grammar.items stop) := by
  refine next ?_
  split
  · exact done rfl (by simp [Led])
  · refine .bind (h.item x) fun n n' P hn hP _ y => ?_
    refine .bind (h.items stop y) fun ns ns' P' hns hP' _ z => done ?_ ?_
    · simp only [AlikeNodes, Node.convertAll, Node.bareAll, Node.mapAll, List.cons.injEq]
      exact ⟨hn, hns⟩
    · have htol : Tolerates (Among []) [] (P' ++ []) := hP'.tolerates_append (by simp)
      exact ⟨⟨⟨hP.append.led, hP.append.tolerates⟩, htol⟩, by simp⟩

end Items

theorem items_retraced (C : Nat → Text → Bool) (d : Nat) : Items C d := by
  induction d with
  | zero =>
    constructor
    all_goals
      intros
      intro s t a hx hp
      cases hp
  | succ d ih =>
    refine ⟨?_, ?_, ?_, ?_⟩
    · exact fun x => Retraces.call .item .item (ih.item_body x)
    · exact fun stop x => Retraces.call (.items stop) (.items stop) (ih.items_body stop x)
    · exact fun x => Retraces.call .statement .statement (ih.statement_body x)
    · exact fun x => Retraces.call .cases .cases (retraces_cases_body ih x)

end Grammar

end ShaderRepair
