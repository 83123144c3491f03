import ShaderRepair.Proofs.CarrySession
import ShaderRepair.Proofs.Dispatch
import ShaderRepair.Proofs.GripNode
import ShaderRepair.Proofs.PassageMap

/-!
# What a line break separates

Four things hold on to the line where what is before them ends: the parenthesis of a call, an
operator behind its operand, the value of a return statement, and the first name that a struct or an
interface block declares. This file contains:
- `Stream.Adjoins`, two significant tokens of a list with nothing between them that separates them,
  and `Stream.adjoins_of_symbol`, how the grammar comes to know of it;
- `Session.advance_bound`, the run over all items;
- `Document.parseTokens_lines`, for the tree of every successful parse.
-/

namespace ShaderRepair

open Grammar

/-! ## Neighbouring tokens -/

namespace Stream

/-- Between the significant tokens with the numbers `i` and `i + 1` there are comments, directives
and white space of one line only. -/
def Adjoins (tokens : List Token) (i : Nat) : Prop :=
  ∃ before between after,
    tokens = before ++ (ofTokens tokens).token i ::
      (between ++ (ofTokens tokens).token (i + 1) :: after) ∧
    (∀ t ∈ before, t.kind ≠ .endOfInput) ∧ (before.filter Token.isSignificant).length = i ∧
    ∀ t ∈ between, t.isIgnored = true

section Significant

variable {tokens : List Token} {t t' : Token} {b : Bool} {more : List (Token × Bool)}

/-- A line break that has been passed is not forgotten before the next significant token. -/
theorem broken_of_significant (h : significant true tokens = (t, b) :: more) : b = true := by
  induction tokens with
  | nil => cases h
  | cons u tokens ih =>
    rw [significant] at h
    split at h
    · exact ih h
    split at h
    · exact ih h
    · cases h
      rfl

theorem exists_between (h : significant false tokens = (t, false) :: more) :
    ∃ between after, tokens = between ++ t :: after ∧ ∀ u ∈ between, u.isIgnored = true := by
  induction tokens with
  | nil => cases h
  | cons u tokens ih =>
    rw [significant] at h
    split at h
    · next hignored =>
      obtain ⟨between, after, rfl, hbetween⟩ := ih h
      refine ⟨u :: between, after, rfl, fun u' hu' => ?_⟩
      rcases List.mem_cons.1 hu' with rfl | hu'
      · exact hignored
      · exact hbetween u' hu'
    split at h
    · exact absurd (broken_of_significant h) Bool.false_ne_true
    · cases h
      exact ⟨[], tokens, rfl, fun u hu => absurd hu List.not_mem_nil⟩

/-- Two significant tokens by number, the second one without a line break before it. -/
theorem exists_before {i : Nat} (h : ((significant b tokens).map Prod.fst)[i]? = some t)
    (h' : (significant b tokens)[i + 1]? = some (t', false)) :
    ∃ before between after, tokens = before ++ t :: (between ++ t' :: after) ∧
      (before.filter Token.isSignificant).length = i ∧ ∀ u ∈ between, u.isIgnored = true := by
  induction tokens generalizing b i with
  | nil => cases h
  | cons u tokens ih =>
    -- A token that is passed over goes to the front.
    have hfront : ∀ {c : Bool}, u.isSignificant = false →
        ((significant c tokens).map Prod.fst)[i]? = some t →
        (significant c tokens)[i + 1]? = some (t', false) →
        ∃ before between after, u :: tokens = before ++ t :: (between ++ t' :: after) ∧
          (before.filter Token.isSignificant).length = i ∧ ∀ u ∈ between, u.isIgnored = true := by
      intro c hu h h'
      obtain ⟨before, between, after, rfl, hlen, hbetween⟩ := ih h h'
      refine ⟨u :: before, between, after, rfl, ?_, hbetween⟩
      rwa [List.filter_cons_of_neg (by simp [hu])]
    rw [significant] at h h'
    split at h
    · next hignored =>
      rw [if_pos hignored] at h'
      have hkind : u.kind.isIgnored = true := hignored
      exact hfront (by simp [Token.isSignificant, Kind.isSignificant, hkind]) h h'
    · next hignored =>
      rw [if_neg hignored] at h'
      split at h
      · next hbreak =>
        rw [if_pos hbreak] at h'
        exact hfront (by simp [Token.isSignificant, Kind.isSignificant, hbreak]) h h'
      · next hbreak =>
        rw [if_neg hbreak] at h'
        have hkind : u.kind.isIgnored = false := Bool.eq_false_iff.2 hignored
        have hsig : u.isSignificant = true := by
          simp [Token.isSignificant, Kind.isSignificant, hkind, hbreak]
        cases i with
        | zero =>
          cases h
          rw [List.getElem?_cons_succ] at h'
          cases hmore : significant false tokens with
          | nil =>
            rw [hmore] at h'
            cases h'
          | cons pair more =>
            rw [hmore] at h'
            cases h'
            obtain ⟨between, after, rfl, hbetween⟩ := exists_between hmore
            exact ⟨[], between, after, rfl, rfl, hbetween⟩
        | succ i =>
          rw [List.getElem?_cons_succ] at h'
          obtain ⟨before, between, after, rfl, hlen, hbetween⟩ := ih h h'
          refine ⟨u :: before, between, after, rfl, ?_, hbetween⟩
          rw [List.filter_cons_of_pos hsig, List.length_cons, hlen]

end Significant

/-- The tokens of a stream and its symbols are in the same order. -/
theorem exists_token {tokens : List Token} {i : Nat} {x : Symbol}
    (h : (ofTokens tokens).symbols[i]? = some x) :
    (significant false (tokens.takeWhile fun t => t.kind ≠ .endOfInput))[i]? =
        some ((ofTokens tokens).token i, x.broken) ∧
      x = Symbol.ofToken x.broken ((ofTokens tokens).token i) := by
  simp only [ofTokens, List.getElem?_map] at h
  cases hpair : (significant false (tokens.takeWhile fun t => t.kind ≠ .endOfInput))[i]? with
  | none =>
    rw [hpair] at h
    cases h
  | some pair =>
    rw [hpair] at h
    have hx : Symbol.ofToken pair.2 pair.1 = x := Option.some.inj h
    have htoken : (ofTokens tokens).token i = pair.1 := by
      rw [token, ofTokens, Array.getD_eq_getD_getElem?, List.getElem?_toArray, List.getElem?_map,
        hpair]
      rfl
    rw [htoken, ← hx]
    exact ⟨rfl, rfl⟩

/-- A symbol that no line break precedes belongs to a token that adjoins the one before. -/
theorem adjoins_of_symbol {tokens : List Token} {i : Nat} {x : Symbol}
    (h : (ofTokens tokens).symbols[i + 1]? = some x) (hx : x.broken = false) :
    Adjoins tokens i := by
  have hlt : i < (ofTokens tokens).symbols.length :=
    Nat.lt_of_succ_lt (List.getElem?_eq_some_iff.1 h).1
  obtain ⟨hpair, -⟩ := exists_token (List.getElem?_eq_getElem hlt)
  obtain ⟨hpair', -⟩ := exists_token h
  rw [hx] at hpair'
  have hfst : ((significant false (tokens.takeWhile fun t => t.kind ≠ .endOfInput)).map
      Prod.fst)[i]? = some ((ofTokens tokens).token i) := by
    rw [List.getElem?_map, hpair]
    rfl
  obtain ⟨before, between, after, hsplit, hlen, hbetween⟩ := exists_before hfst hpair'
  refine ⟨before, between, after ++ tokens.dropWhile fun t => t.kind ≠ .endOfInput, ?_, ?_, hlen,
    hbetween⟩
  · conv_lhs => rw [← List.takeWhile_append_dropWhile (p := fun t => t.kind ≠ .endOfInput)
      (l := tokens), hsplit]
    simp only [List.append_assoc, List.cons_append]
  · intro t ht
    have hmem : t ∈ tokens.takeWhile fun t => t.kind ≠ .endOfInput := by
      rw [hsplit]
      exact List.mem_append_left _ ht
    simpa using List.mem_takeWhile_imp hmem

end Stream

/-! ## All items -/

namespace Session

/-- What is known of an item: its expressions and the nodes inside it begin on their lines. -/
structure ItemBound (xs : List Symbol) (n : Item) : Prop where
  gripped : ∀ e ∈ n.slots, ∀ a ∈ e.postorder, Gripped xs a
  bound : BoundWithin xs n

/-- One item. -/
theorem itemBound {xs : List Symbol} {s t : State} {n : Item} (h : item? s = .accepted n t)
    (hrest : s.rest = xs.drop s.passed) (hs : s.pending = []) :
    ItemBound xs n ∧ t.rest = xs.drop t.passed := by
  have hgrips : Grips xs s := ⟨hrest, fun e he => by rw [hs] at he; cases he⟩
  have hafter : Grips xs t :=
    Rule.keeps xs s.depth (show Holds (Rule.held .item) s from Holds.nil s) trivial hgrips h
  have hrun : (Procedure.run .item).exec (Rule.run s.depth) s = .accepted n t := by
    rw [exec_run]
    exact h
  refine ⟨⟨fun e he => hafter.pending e ?_, Rule.yields xs s.depth .item _ hrest rfl hrun⟩,
    hafter.rest⟩
  rw [← item?_pending h hs] at he
  exact List.mem_reverse.1 he

theorem advance_bound {xs : List Symbol} (count : Nat) {s t : Session}
    (h : s.advance count = (t, none)) (hcount : s.state.rest.length < count)
    (hrest : s.state.rest = xs.drop s.state.passed) (hs : s.state.pending = []) :
    ∃ ns, s.Reads t ns ∧ ∀ n ∈ ns, ItemBound xs n := by
  obtain ⟨ns, hreads, -, hbounds⟩ :=
    advance_items (J := fun s => s.rest = xs.drop s.passed ∧ s.pending = []) (P := ItemBound xs)
      (fun hn hJ => ⟨(itemBound hn hJ.1 hJ.2).1, (itemBound hn hJ.1 hJ.2).2, rfl⟩)
      count h hcount ⟨hrest, hs⟩
  exact ⟨ns, hreads, hbounds⟩

end Session

/-! ## Every parse -/

/-- The variables that a struct or an interface block declares behind its brace. -/
def Node.instances {μ ε : Type} : Node μ ε → List (Declarator μ ε)
  | .struct _ _ _ _ ds => ds
  | .interface _ _ _ _ ds => ds
  | _ => []

/-- What a block declares begins on the line of its brace. -/
theorem Grammar.Bound.attached {xs : List Symbol} {n : Item} {d : Declarator Nat Tree}
    (h : Bound xs n) (hd : d ∈ n.instances.head?) : Attached xs d.name.mark := by
  cases n with
  | struct X quals name members ds =>
    cases ds with
    | nil => cases hd
    | cons d' ds =>
      cases hd
      exact h
  | interface X quals name members ds =>
    cases ds with
    | nil => cases hd
    | cons d' ds =>
      cases hd
      exact h
  | _ => cases hd

namespace Document

/-- The tree of a parse, with the numbers of the significant tokens for marks. -/
def tree (tokens : List Token) (source : Text) (o : Options) : Module Nat Tree :=
  ((Session.start tokens o).setSource source).run.1.pieces.reverse

/-- The tree of a parse that succeeds, with what its expressions and its nodes keep. -/
theorem tree_of_run {tokens : List Token} {source : Text} {o : Options} {t : Session}
    (ht : ((Session.start tokens o).setSource source).run = (t, none)) :
    tree tokens source o = t.pieces.reverse ∧
      (∀ e ∈ (tree tokens source o).arena, Gripped (Stream.ofTokens tokens).symbols e) ∧
      ∀ n ∈ (tree tokens source o).nodes, Bound (Stream.ofTokens tokens).symbols n := by
  obtain ⟨ns, hreads, hbounds⟩ :
      ∃ ns, ((Session.start tokens o).setSource source).Reads t ns ∧
        ∀ n ∈ ns, Session.ItemBound (Stream.ofTokens tokens).symbols n :=
    Session.advance_bound _ ht (Nat.lt_succ_self _) rfl rfl
  have htree : tree tokens source o = t.pieces.reverse := by
    rw [tree, ht]
  have hitems : tree tokens source o = ns.map .item := by
    have hpieces : t.pieces = (ns.map .item).reverse := hreads.pieces.trans (List.append_nil _)
    rw [htree, hpieces, List.reverse_reverse]
  refine ⟨htree, ?_, ?_⟩
  · intro e he
    rw [hitems, Module.arena_map_item] at he
    obtain ⟨n, hn, he⟩ := List.mem_flatMap.1 he
    obtain ⟨root, hroot, he⟩ := List.mem_flatMap.1 he
    exact (hbounds n hn).gripped root hroot e he
  · intro n hn
    rw [hitems, Module.nodes, Module.items_map_item] at hn
    obtain ⟨n', hn', hn⟩ := List.mem_flatMap.1 hn
    exact (hbounds n' hn').bound n hn

/-- No line break stands between the last token of a callee and the parenthesis of the call, between
an operand and an operator behind it, between the keyword of a return statement and the first token
of its value, or between the closing brace of a block and the first name that it declares. -/
theorem parseTokens_lines {tokens : List Token} {source : Text} {o : Options} {report : Report}
    (h : parseTokens tokens source o = .ok report) :
    let token := (Stream.ofTokens tokens).token
    let m := tree tokens source o
    report.module = Module.mapWith token (Expr.map (Extent.map token)) m ∧
    (∀ X callee args, .call X callee args ∈ m.arena →
      (token (callee.note.last + 1)).kind = .leftParen ∧
        Stream.Adjoins tokens callee.note.last) ∧
    (∀ X op operand, .unary X op .after operand ∈ m.arena →
      (token (operand.note.last + 1)).lexeme = op ∧ Stream.Adjoins tokens operand.note.last) ∧
    (∀ X value, .return X (some value) ∈ m.nodes →
      (token X.first).kind = .return ∧ value.note.first = X.first + 1 ∧
        Stream.Adjoins tokens X.first) ∧
    ∀ n ∈ m.nodes, ∀ d ∈ n.instances.head?,
      ∃ i, (token i).kind = .rightBrace ∧ d.name.mark = i + 1 ∧ Stream.Adjoins tokens i := by
  intro token m
  obtain ⟨t, ht, rfl⟩ := parseTokens_eq_ok.1 h
  obtain ⟨htree, hexprs, hnodes⟩ := tree_of_run ht
  have hstream : t.stream = Stream.ofTokens tokens := Session.stream_of_run ht
  -- What is known of symbols is said of their tokens.
  refine ⟨?_, ?_, ?_, ?_, ?_⟩
  · rw [Session.report, Session.module, hstream, ← htree]
  · intro X callee args he
    obtain ⟨x, hx, hkind, hbroken⟩ := hexprs _ he
    rw [(Stream.exists_token hx).2] at hkind
    exact ⟨hkind, Stream.adjoins_of_symbol hx hbroken⟩
  · intro X op operand he
    obtain ⟨x, hx, -, hop, hbroken⟩ := hexprs _ he
    rw [(Stream.exists_token hx).2] at hop
    exact ⟨hop, Stream.adjoins_of_symbol hx hbroken⟩
  · intro X value hn
    obtain ⟨hfirst, keyword, x, hkeyword, hkind, hx, hbroken⟩ := hnodes _ hn
    rw [(Stream.exists_token hkeyword).2] at hkind
    exact ⟨hkind, hfirst, Stream.adjoins_of_symbol hx hbroken⟩
  · intro n hn d hd
    have hattached : Attached (Stream.ofTokens tokens).symbols d.name.mark :=
      (hnodes n hn).attached hd
    obtain ⟨i, brace, x, hmark, hbrace, hkind, hx, hbroken⟩ := hattached
    rw [(Stream.exists_token hbrace).2] at hkind
    exact ⟨i, hkind, hmark, Stream.adjoins_of_symbol hx hbroken⟩

/-- A struct with instances, a call, a trailing operator and a return statement with a value, and
behind them a parenthesis, an operator and a name that hold on to nothing. -/
theorem parseTokens_lines_struct :
    let tokens := Lexer.lex (Text.ascii ("struct S \x7b int a; \x7d /**/ s, t\n" ++
      "int f() \x7b\n  f /**/ (i++)\n  (i)\n  ++i\n  return i\n\x7d")) false
    let token := (Stream.ofTokens tokens).token
    let m := tree tokens [] Options.all
    (parseTokens tokens [] Options.all).toOption.isSome = true ∧
    (m.arena.map Expr.formName).filter (· = Text.ascii "Call") = [Text.ascii "Call"] ∧
    (∀ X callee args, .call X callee args ∈ m.arena →
      (token (callee.note.last + 1)).kind = .leftParen ∧
        Stream.Adjoins tokens callee.note.last) ∧
    (∀ X op operand, .unary X op .after operand ∈ m.arena →
      (token (operand.note.last + 1)).lexeme = op ∧ Stream.Adjoins tokens operand.note.last) ∧
    (∀ X value, .return X (some value) ∈ m.nodes →
      (token X.first).kind = .return ∧ value.note.first = X.first + 1 ∧
        Stream.Adjoins tokens X.first) ∧
    ∀ n ∈ m.nodes, ∀ d ∈ n.instances.head?,
      ∃ i, (token i).kind = .rightBrace ∧ d.name.mark = i + 1 ∧ Stream.Adjoins tokens i := by
  intro tokens token m
  have hcalls : (parseTokens tokens [] Options.all).toOption.isSome = true ∧
      (m.arena.map Expr.formName).filter (· = Text.ascii "Call") = [Text.ascii "Call"] := by
    simp only [m, tokens, Lexer.lex_eq_scan]
    decide +kernel
  obtain ⟨hsome, hcall⟩ := hcalls
  cases hparse : parseTokens tokens [] Options.all with
  | error e =>
    rw [hparse] at hsome
    cases hsome
  | ok report => exact ⟨rfl, hcall, (parseTokens_lines hparse).2⟩

end Document

end ShaderRepair
