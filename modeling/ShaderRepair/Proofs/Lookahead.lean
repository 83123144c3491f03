import ShaderRepair.Proofs.Cursor
import ShaderRepair.Proofs.Dispatch
import ShaderRepair.Proofs.RestoreLookahead
import ShaderRepair.Proofs.RetraceDeclaration

/-!
# What the lookahead finds is what the type is followed by

The lookahead for declarations counts square brackets; the rule for types reads whole expressions
between them, with repairs. The repairs put in no square bracket, so the symbols of an expression
are as balanced as the repaired ones, and both stop at the same symbol. This file contains:
- `Symbol.scan_append` and `Symbol.scan_of_cons`, scanning in two parts and with a symbol left out;
- `Noted.scan_old`, from the repaired symbols back to those that were read;
- `next_of_dims`, what cannot stand behind dimensions;
- `typeSpec_lookahead`, the lookahead where a type is read.
-/

namespace ShaderRepair

/-! ## Scanning -/

namespace Symbol

theorem scan_append (depth : Nat) (v w : List Kind) :
    scan depth (v ++ w) = (scan depth v).elim .inl fun depth' => scan depth' w := by
  induction v generalizing depth with
  | nil => rfl
  | cons k v ih =>
    rw [List.cons_append, scan, scan]
    cases scanNext depth k with
    | inl b => rfl
    | inr depth' => exact ih depth'

/-- A scan that goes on to the end does so in both parts. -/
theorem scan_append_inr {depth n : Nat} {v w : List Kind} :
    scan depth (v ++ w) = .inr n ↔ ∃ m, scan depth v = .inr m ∧ scan m w = .inr n := by
  rw [scan_append]
  cases scan depth v with
  | inl b => simp
  | inr m => simp

theorem scan_cons_inr {depth n : Nat} {k : Kind} {w : List Kind} :
    scan depth (k :: w) = .inr n ↔ ∃ m, scanNext depth k = .inr m ∧ scan m w = .inr n := by
  rw [scan]
  cases scanNext depth k with
  | inl b => simp
  | inr m => simp

/-- A symbol that is no square bracket does not count, unless the scan ends with it. -/
theorem scanNext_of_ne {depth n : Nat} {k : Kind} (hopen : k ≠ .leftBracket)
    (hclose : k ≠ .rightBracket) (h : scanNext depth k = .inr n) : n = depth := by
  cases depth with
  | zero =>
    rw [scanNext, if_neg hopen] at h
    cases h
  | succ depth => cases k <;> cases h <;> first | rfl | contradiction

theorem scan_of_cons {depth n : Nat} {k : Kind} {w : List Kind} (hopen : k ≠ .leftBracket)
    (hclose : k ≠ .rightBracket) (h : scan depth (k :: w) = .inr n) : scan depth w = .inr n := by
  obtain ⟨m, hm, hw⟩ := scan_cons_inr.1 h
  obtain rfl := scanNext_of_ne hopen hclose hm
  exact hw

/-- A name stands behind closed brackets. -/
theorem nameAfterDims_of_scan {w rest : List Symbol} (h : scan 0 (w.map Symbol.kind) = .inr 0) :
    nameAfterDims 0 (w ++ rest) = nameAfterDims 0 rest := by
  rw [nameAfterDims_append, h]
  rfl

end Symbol

/-! ## Cursors -/

/-- A cursor that is moved on repeatedly passes as many symbols. -/
theorem Cursor.Faces.iterate {ts : List Token} {i : Nat} {xs : List Symbol} (hts : Cursor.Ended ts)
    (h : Cursor.Faces ts i xs) (n : Nat) :
    Cursor.Faces ts ((Cursor.after ts)^[n] i) (xs.drop n) := by
  induction n generalizing i xs with
  | zero => exact h
  | succ n ih =>
    rw [Function.iterate_succ_apply, ← List.drop_tail]
    exact ih (h.read hts).2

namespace Grammar

open Piece Procedure

/-! ## From the repaired symbols to those that were read -/

/-- No repair puts in a square bracket. -/
theorem ne_bracket_of_kind? {m : Missing} {k : Kind} (h : m.kind? = some k) :
    k ≠ .leftBracket ∧ k ≠ .rightBracket := by
  cases m <;> cases h <;> exact ⟨Kind.noConfusion, Kind.noConfusion⟩

/-- What the lookahead passes among the repaired symbols it passes among those that were read, with
as many brackets open behind it. -/
theorem Noted.scan_old {n : Nat} {P : List Piece} {R : List Repair} (h : Noted n P R)
    {depth depth' : Nat} (hscan : Symbol.scan depth ((new P).map Symbol.kind) = .inr depth') :
    Symbol.scan depth ((old P).map Symbol.kind) = .inr depth' := by
  induction h generalizing depth depth' with
  | nil n => exact hscan
  | kept n hs => exact hscan
  | behind n hm =>
    obtain ⟨hopen, hclose⟩ := ne_bracket_of_kind? hm
    exact Symbol.scan_of_cons hopen hclose hscan
  | append h h' ih ih' =>
    rw [new_append, List.map_append, Symbol.scan_append_inr] at hscan
    obtain ⟨m, hm, hscan⟩ := hscan
    rw [old_append, List.map_append, Symbol.scan_append_inr]
    exact ⟨m, ih hm, ih' hscan⟩
  | paren h ih =>
    rw [new_opened] at hscan
    exact ih (Symbol.scan_of_cons Kind.noConfusion Kind.noConfusion hscan)
  | conversion hsign hT h ih =>
    rename_i n sign s T P R
    simp only [new_kept, new_opened, new_append, List.map_cons, List.map_append,
      Symbol.scan_cons_inr] at hscan
    obtain ⟨m, hnext, hscan⟩ := hscan
    -- A name and a parenthesis stand before the initializer, and a parenthesis behind it.
    have hname := Symbol.scan_of_cons Kind.noConfusion Kind.noConfusion hscan
    have hparen := Symbol.scan_of_cons Kind.noConfusion Kind.noConfusion hname
    have hinit : Symbol.scan m ((new (.kept s :: P)).map Symbol.kind ++ [.rightParen]) =
        .inr depth' := hparen
    obtain ⟨m', hinit, hclose⟩ := Symbol.scan_append_inr.1 hinit
    have hend := Symbol.scan_of_cons Kind.noConfusion Kind.noConfusion hclose
    cases hend
    simp only [old_kept, old_opened, old_append, old_behind, old_nil, List.append_nil,
      List.map_cons, Symbol.scan_cons_inr]
    exact ⟨m, hnext, Symbol.scan_cons_inr.1 (ih hinit)⟩

/-- The lookahead passes the symbols of dimensions. -/
theorem PassedOver.scan {P : List Piece} (h : PassedOver P) :
    Symbol.scan 0 ((new P).map Symbol.kind) = .inr 0 := by
  have hname := h [Symbol.mark .identifier]
  have hend := h []
  rw [Symbol.nameAfterDims_append] at hname hend
  cases hscan : Symbol.scan 0 ((new P).map Symbol.kind) with
  | inl b =>
    rw [hscan] at hname hend
    exact absurd (hname.symm.trans hend) (by decide)
  | inr depth =>
    rw [hscan] at hname
    cases depth with
    | zero => rfl
    | succ depth => exact absurd hname (by simp [Symbol.nameAfterDims, Symbol.mark])

/-! ## Types -/

variable {d : Nat} {s t : State}

/-- Dimensions are read as long as there are any. -/
theorem next_of_dims {ds : List (Option Tree)}
    (h : (run .dims).exec (Rule.run d) s = .accepted ds t) : t.next.kind ≠ .leftBracket := by
  induction d generalizing s ds with
  | zero => cases h
  | succ d ih =>
    rw [exec_run_succ] at h
    obtain ⟨b, m, hm, h⟩ := exec_bind_accepted.1 h
    rw [exec_accept] at hm
    split at hm
    · cases hm
      -- With a size or without one, more dimensions are read behind the bracket.
      have hclosed : ∀ {size : Option Tree} {m : State},
          (expect [.kind .rightBracket] >>= fun _ => run .dims >>= fun more =>
            pure (size :: more)).exec (Rule.run d) m = .accepted ds t →
          t.next.kind ≠ .leftBracket := by
        intro size m h
        obtain ⟨_, m, -, h⟩ := exec_bind_accepted.1 h
        obtain ⟨more, m, hmore, h⟩ := exec_bind_accepted.1 h
        cases h
        exact ih hmore
      simp only [if_true] at h
      obtain ⟨x, m, -, h⟩ := exec_bind_accepted.1 h
      split at h
      · exact hclosed h
      · obtain ⟨size, m, -, h⟩ := exec_bind_accepted.1 h
        exact hclosed h
    · next hno =>
      cases hm
      cases h
      exact fun hk => hno (by simp [Expectation.accepts, hk])

/-- The symbols of a type: a name, and dimensions with their brackets closed. -/
theorem symbols_of_typeSpec {type : TypeSpec Nat Tree}
    (h : typeSpec.exec (Rule.run d) s = .accepted type t) :
    ∃ x w, s.rest = x :: (w ++ t.rest) ∧ t.passed = s.passed + (x :: w).length ∧
      x.kind = .identifier ∧ Symbol.scan 0 (w.map Symbol.kind) = .inr 0 ∧
      t.next.kind ≠ .leftBracket := by
  obtain ⟨name, m, hname, h⟩ := exec_bind_accepted.1 h
  obtain ⟨ds, m', hdims, h⟩ := exec_bind_accepted.1 h
  cases h
  obtain ⟨haccepts, -, rfl⟩ := exec_expect_accepted.1 hname
  have hx := kind_of_expected haccepts
  obtain ⟨more, hrest⟩ := State.rest_of_next rfl (by rw [hx]; exact Kind.noConfusion)
  have hshift := State.shift_of_rest hrest
  obtain ⟨-, P, R, hpass, ⟨-, hover⟩, -⟩ :=
    retraces_dims (fun _ _ => false) d s.shift.next rfl hdims
  refine ⟨s.next, old P, ?_, ?_, hx, hpass.noted.scan_old hover.scan, next_of_dims hdims⟩
  · rw [hrest, ← hpass.rest, hshift]
  · rw [hpass.passed, hshift, List.length_cons, Nat.add_assoc, Nat.add_comm 1]

/-- Where a type is read, the lookahead finds a declaration just if a name follows, also when it
looks for the symbols among the tokens of a source: from a cursor it comes to an answer, and as many
symbols further on as the type has, the next symbol is that name. -/
theorem typeSpec_lookahead {type : TypeSpec Nat Tree}
    (h : typeSpec.exec (Rule.run d) s = .accepted type t) :
    (Symbol.startsDeclaration s.rest = true ↔ t.next.kind = .identifier) ∧
    ∀ ts i, Cursor.Ended ts → Cursor.Faces ts i s.rest →
      Cursor.symbol? ts ((Cursor.after ts)^[t.passed - s.passed] i) = some t.next ∧
      Cursor.Declares ts i (t.next.kind = .identifier) := by
  obtain ⟨x, w, hrest, hpassed, hx, hscan, hbracket⟩ := symbols_of_typeSpec h
  -- Past the dimensions the lookahead looks at the symbol that the type has stopped at.
  have hname : Symbol.startsDeclaration s.rest = decide (t.next.kind = .identifier) := by
    rw [hrest, Symbol.startsDeclaration, decide_eq_true hx, Bool.true_and,
      Symbol.nameAfterDims_of_scan hscan]
    unfold State.next at hbracket ⊢
    cases htail : t.rest with
    | nil => rfl
    | cons y more =>
      rw [htail, List.headD_cons] at hbracket
      rw [Symbol.nameAfterDims, if_neg hbracket]
      rfl
  refine ⟨by rw [hname, decide_eq_true_eq], fun ts i hts hfaces => ⟨?_, ?_⟩⟩
  · have hcount : t.passed - s.passed = (x :: w).length := by
      rw [hpassed, Nat.add_sub_cancel_left]
    have hdrop : s.rest.drop (t.passed - s.passed) = t.rest := by
      rw [hcount, hrest, ← List.cons_append]
      exact List.drop_left
    have hread := ((hfaces.iterate hts (t.passed - s.passed)).read hts).1
    rwa [hdrop] at hread
  · rw [← hname]
    exact hfaces.declares hts

/-- A type with two dimensions, in the first of which a parenthesis is not closed, and a name. -/
theorem typeSpec_lookahead_dims :
    ∃ tokens, tokens = Lexer.lex (Text.ascii "vec2 [f(a[1]] // two\n[] x = y;") true ∧
      ∃ type t, typeSpec.exec (Rule.run 64) (State.start (Stream.ofTokens tokens).symbols) =
          .accepted type t ∧ t.repairs.length = 1 ∧
        Symbol.startsDeclaration (Stream.ofTokens tokens).symbols = true ∧
        Cursor.Declares (Cursor.ended tokens) 0 true := by
  refine ⟨_, rfl, ?_⟩
  generalize htokens : Lexer.lex (Text.ascii "vec2 [f(a[1]] // two\n[] x = y;") true = tokens
  have hrun : (match typeSpec.exec (Rule.run 64) (State.start (Stream.ofTokens tokens).symbols) with
      | .accepted _ t => some (t.next.kind, t.repairs.length)
      | .rejected _ _ => none) = some (.identifier, 1) := by
    rw [← htokens, Lexer.lex_eq_scan]
    decide +kernel
  cases h : typeSpec.exec (Rule.run 64) (State.start (Stream.ofTokens tokens).symbols) with
  | rejected why t =>
    rw [h] at hrun
    cases hrun
  | accepted type t =>
    rw [h] at hrun
    obtain ⟨hkind, hrepairs⟩ := Prod.mk.inj (Option.some.inj hrun)
    obtain ⟨hstarts, hcursor⟩ := typeSpec_lookahead h
    have hdeclares := (hcursor _ 0 (Cursor.ended_ended tokens) (Cursor.faces_ended tokens)).2
    rw [hkind] at hdeclares
    exact ⟨type, t, rfl, hrepairs, hstarts.2 hkind, hdeclares⟩

end Grammar

end ShaderRepair
