import ShaderRepair.Proofs.CarrySession
import ShaderRepair.Proofs.Dispatch
import ShaderRepair.Proofs.NestingGrammar
import ShaderRepair.Proofs.Repaired

/-!
# Nested brackets of repaired texts

The repaired text of a source needs no repair itself, so its brackets are nested, whatever is
missing in the source. This file contains:
- `Session.advance_balances`, the brackets of a run over many items;
- `Lexer.brackets_lex`, which brackets of a source the grammar sees: all of them;
- `Document.repair_nested`, for the repaired text.
-/

namespace ShaderRepair

open Grammar

/-! ## All items -/

namespace Session

/-- A run over many items closes what it opens, unless it notes repairs. Its parentheses are allowed
for by the symbols it passes. -/
theorem advance_balances (count : Nat) {s t : Session} (h : s.advance count = (t, none)) :
    ∃ w R, Advances s.state t.state w R ∧
      (R = [] → closes [] (w.map Symbol.kind) = true) ∧ parenCount R ≤ allowance w := by
  induction count generalizing s with
  | zero =>
    cases h
    exact ⟨[], [], .refl _, fun _ => rfl, Nat.le_refl _⟩
  | succ count ih =>
    by_cases hs : s.state.rest = []
    · rw [advance_of_nil hs] at h
      cases h
      exact ⟨[], [], .refl _, fun _ => rfl, Nat.le_refl _⟩
    · obtain ⟨n, m, hn, hmore⟩ := advance_accepted h hs
      have hitem : (Procedure.run .item).exec (Rule.run s.state.depth) s.state = .accepted n m := by
        rw [exec_run]
        exact hn
      obtain ⟨w, R, hw, hcloses, hcount⟩ := Rule.balances _ .item _ rfl hitem
      obtain ⟨w', R', hw', hcloses', hcount'⟩ := ih hmore
      -- Settling the item changes nothing but the pending expressions.
      have hw'' : Advances m t.state w' R' := ⟨hw'.rest, hw'.passed, hw'.repairs⟩
      refine ⟨w ++ w', R' ++ R, hw.trans hw'', fun hR => ?_, ?_⟩
      · obtain ⟨hR', hR⟩ := List.append_eq_nil_iff.1 hR
        rw [List.map_append, ← List.nil_append ([] : List Kind), closes_append (hcloses hR)]
        exact hcloses' hR'
      · rw [parenCount_append, allowance_append]
        rw [List.count_nil] at hcount
        omega

/-- A run up to the end passes all symbols. -/
theorem run_balances {s t : Session} (h : s.run = (t, none)) :
    ∃ R, t.state.repairs = R ++ s.state.repairs ∧
      (R = [] → closes [] (s.state.rest.map Symbol.kind) = true) ∧
      parenCount R ≤ allowance s.state.rest := by
  obtain ⟨ns, hreads, -⟩ := Session.advance_content _ h (Nat.lt_succ_self _)
  obtain ⟨w, R, hw, hcloses, hcount⟩ := advance_balances _ h
  have hrest : s.state.rest = w := by rw [hw.rest, hreads.rest, List.append_nil]
  rw [hrest]
  exact ⟨R, hw.repairs, hcloses, hcount⟩

end Session

/-! ## Brackets of a source -/

theorem Kind.isSignificant_of_isBracket {k : Kind} (h : k.isBracket = true) :
    k.isSignificant = true ∧ k.isIgnored = false ∧ k ≠ .endOfInput := by
  cases k <;> first | decide | exact absurd h Bool.false_ne_true

theorem Token.isSeen_of_isBracket {t : Token} (h : t.kind.isBracket = true) :
    t.isSeen = true ∧ t.isIgnored = false :=
  have ⟨hsig, hign, hend⟩ := Kind.isSignificant_of_isBracket h
  ⟨Token.isSeen_iff.2 ⟨hsig, hend⟩, hign⟩

theorem Stream.kinds_ofSource (source : Text) :
    (ofSource source).symbols.map Symbol.kind =
      ((Lexer.tokens source).filter Token.isSeen).map Token.kind := by
  rw [← tokens_ofSource]
  simp only [ofSource, ofTokens, List.map_map]
  rfl

/-- With or without the ignored tokens, the brackets are those that the grammar sees. -/
theorem Lexer.brackets_lex (source : Text) (keepIgnored : Bool) :
    ((lex source keepIgnored).map Token.kind).filter Kind.isBracket =
      ((Stream.ofSource source).symbols.map Symbol.kind).filter Kind.isBracket := by
  have hlex : (lex source keepIgnored).filter (Kind.isBracket ∘ Token.kind) =
      (tokens source).filter (Kind.isBracket ∘ Token.kind) := by
    cases keepIgnored with
    | true => rfl
    | false =>
      change ((tokens source).filter fun t => !t.isIgnored).filter _ = _
      rw [List.filter_filter]
      refine List.filter_congr fun t _ => ?_
      by_cases ht : t.kind.isBracket = true
      · simp [ht, (Token.isSeen_of_isBracket ht).2]
      · simp [ht]
  rw [Stream.kinds_ofSource, List.filter_map, List.filter_map, hlex, List.filter_filter]
  congr 1
  refine List.filter_congr fun t _ => ?_
  by_cases ht : t.kind.isBracket = true
  · simp [ht, (Token.isSeen_of_isBracket ht).1]
  · simp [ht]

/-! ## Repaired texts -/

theorem Correction.edits_ne_nil (stream : Stream) (r : Repair) :
    (ofRepair stream r).edits ≠ [] := by
  obtain ⟨index, missing⟩ := r
  cases missing <;> exact List.cons_ne_nil _ _

/-- Each correction has edits, so there are no edits only where nothing was found missing. -/
theorem Session.repairs_of_edits {s : Session} (hs : s.options = Options.all)
    (h : s.report.edits = []) : s.state.repairs = [] := by
  have hchosen : Correction.enabled s.options s.corrections =
      s.state.repairs.reverse.map (Correction.ofRepair s.stream) := by
    rw [hs, corrections, Correction.enabled_map, Repair.chosen_all]
  have hedits : s.report.edits =
      Correction.allEdits (s.state.repairs.reverse.map (Correction.ofRepair s.stream)) := by
    rw [← hchosen]
    rfl
  rw [hedits, Correction.allEdits, List.flatMap_eq_nil_iff] at h
  refine List.reverse_eq_nil_iff.1 (List.eq_nil_iff_forall_not_mem.2 fun r hr => ?_)
  exact Correction.edits_ne_nil s.stream r (h _ (List.mem_map_of_mem hr))

namespace Document

variable {source : Text}

theorem repair_eq_ok {o : Options} {r : Repaired} :
    repair source o = .ok r ↔ ∃ report, parse source o = .ok report ∧ r = apply source report := by
  rw [repair]
  cases parse source o with
  | error e => simp [Except.map]
  | ok report => simp [Except.map, eq_comm]

/-- A source that needs no edits has nested brackets. -/
theorem nested_of_edits {report : Report} (h : parse source Options.all = .ok report)
    (hedits : report.edits = []) (keepIgnored : Bool) :
    Nested (((Lexer.lex source keepIgnored).map Token.kind).filter Kind.isBracket) := by
  obtain ⟨t, ht, rfl⟩ := parse_eq_ok.1 h
  obtain ⟨R, hR, hcloses, -⟩ := Session.run_balances ht
  rw [Session.repairs_of_edits (Session.options_of_run ht) hedits] at hR
  rw [Lexer.brackets_lex]
  exact nested_of_closes (hcloses (List.append_eq_nil_iff.1 hR.symm).1)

/-- The parentheses, brackets and braces of a repaired text are nested, whatever is missing in the
source. -/
theorem repair_nested {r : Repaired} (h : repair source Options.all = .ok r) (keepIgnored : Bool) :
    Nested (((Lexer.lex r.text keepIgnored).map Token.kind).filter Kind.isBracket) := by
  obtain ⟨report, hreport, rfl⟩ := repair_eq_ok.1 h
  obtain ⟨R, ns, ns', report', -, hparse, hreports, -⟩ := parse_apply hreport Options.all
  exact nested_of_edits hparse hreports.edits keepIgnored

/-- A parameter list, two conditions, a call and an operand without all their parentheses. -/
theorem repair_nested_conditions :
    ∃ r, repair (Text.ascii "void f(int a { if a[0] { g(1, (2) } while (a c = d[(e] }")
        Options.all = .ok r ∧
      (((Lexer.lex r.text false).map Token.kind).filter Kind.isBracket).length = 20 ∧
      Nested (((Lexer.lex r.text false).map Token.kind).filter Kind.isBracket) := by
  have hlen : (repair (Text.ascii "void f(int a { if a[0] { g(1, (2) } while (a c = d[(e] }")
      Options.all).toOption.map (fun r =>
        (((Lexer.lex r.text false).map Token.kind).filter Kind.isBracket).length) = some 20 := by
    simp only [repair, parse, Lexer.lex_eq_scan]
    decide +kernel
  obtain ⟨r, hr, hrlen⟩ := exists_ok_of_map hlen
  exact ⟨r, hr, hrlen, repair_nested hr false⟩

end Document

end ShaderRepair
