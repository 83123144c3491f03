import ShaderRepair.Proofs.Dispatch
import ShaderRepair.Proofs.GripDocument
import ShaderRepair.Proofs.RestoreSession

/-!
# Semicolons that may be left out

A source that needs no repair stays what it is when single semicolons are left out of its tokens in
front of closing braces, the end of input, qualifiers and other keywords. This file contains:
- mapping the marks of a tree twice;
- `Stream.Omits` and `Stream.Omits.omission`, leaving tokens out of a list;
- `Document.Omissible` and `Document.parse_restored`, for the parse of what is left.
-/

namespace ShaderRepair

/-! ## Mapping twice -/

section MapTwice

variable {μ ν ξ ε η ζ : Type} (f : μ → ν) (f' : ν → ξ) (g : ε → η) (g' : η → ζ)

theorem Name.map_map (n : Name μ) : (n.map f).map f' = n.map (f' ∘ f) :=
  rfl

theorem Qualifier.map_map (q : Qualifier μ) : (q.map f).map f' = q.map (f' ∘ f) :=
  rfl

theorem LayoutParam.map_map (p : LayoutParam μ ε) :
    (p.map f g).map f' g' = p.map (f' ∘ f) (g' ∘ g) := by
  simp only [LayoutParam.map, Name.map_map, Option.map_map]

theorem Qualifiers.map_map (q : Qualifiers μ ε) :
    (q.map f g).map f' g' = q.map (f' ∘ f) (g' ∘ g) := by
  simp only [Qualifiers.map, List.map_map, Function.comp_def, LayoutParam.map_map,
    Qualifier.map_map]

theorem TypeSpec.map_map (t : TypeSpec μ ε) :
    (t.map f g).map f' g' = t.map (f' ∘ f) (g' ∘ g) := by
  simp only [TypeSpec.map, List.map_map, Function.comp_def, Option.map_map, Name.map_map]

theorem Declarator.map_map (d : Declarator μ ε) :
    (d.map f g).map f' g' = d.map (f' ∘ f) (g' ∘ g) := by
  simp only [Declarator.map, List.map_map, Function.comp_def, Option.map_map, Name.map_map]

theorem Member.map_map (m : Member μ ε) :
    (m.map f g).map f' g' = m.map (f' ∘ f) (g' ∘ g) := by
  simp only [Member.map, List.map_map, Function.comp_def, Qualifiers.map_map, TypeSpec.map_map,
    Declarator.map_map, Extent.map]

theorem Param.map_map (p : Param μ ε) :
    (p.map f g).map f' g' = p.map (f' ∘ f) (g' ∘ g) := by
  simp only [Param.map, List.map_map, Function.comp_def, Qualifiers.map_map, TypeSpec.map_map,
    Option.map_map, Name.map_map]

theorem Variables.map_map (v : Variables μ ε) :
    (v.map f g).map f' g' = v.map (f' ∘ f) (g' ∘ g) := by
  simp only [Variables.map, List.map_map, Function.comp_def, Qualifiers.map_map, TypeSpec.map_map,
    Declarator.map_map]

theorem Signature.map_map (s : Signature μ ε) :
    (s.map f g).map f' g' = s.map (f' ∘ f) (g' ∘ g) := by
  simp only [Signature.map, List.map_map, Function.comp_def, Qualifiers.map_map, TypeSpec.map_map,
    Param.map_map, Name.map_map]

theorem ForInit.map_map (init : ForInit μ ε) :
    (init.map f g).map f' g' = init.map (f' ∘ f) (g' ∘ g) := by
  cases init with
  | none => rfl
  | vars x v => simp only [ForInit.map, Variables.map_map, Extent.map, Function.comp_apply]
  | expression x e => rfl

mutual

theorem Node.map_map (n : Node μ ε) :
    (n.map f g).map f' g' = n.map (f' ∘ f) (g' ∘ g) := by
  match n with
  | .struct x q name ms ds =>
    simp only [Node.map, Extent.map, List.map_map, Option.map_map, Function.comp_def,
      Qualifiers.map_map, Member.map_map, Declarator.map_map, Name.map_map]
  | .interface x q name ms ds =>
    simp only [Node.map, Extent.map, List.map_map, Function.comp_def,
      Qualifiers.map_map, Member.map_map, Declarator.map_map, Name.map_map]
  | .vars x v => simp only [Node.map, Extent.map, Variables.map_map, Function.comp_apply]
  | .prototype x s => simp only [Node.map, Extent.map, Signature.map_map, Function.comp_apply]
  | .function x s y body =>
    simp only [Node.map, Extent.map, Signature.map_map, Node.mapAll_map body, Function.comp_apply]
  | .precision x word t =>
    simp only [Node.map, Extent.map, TypeSpec.map_map, Name.map_map, Function.comp_apply]
  | .qualifiers x q names =>
    simp only [Node.map, Extent.map, List.map_map, Qualifiers.map_map, Name.map_map,
      Function.comp_def]
  | .expression x e => rfl
  | .empty x => rfl
  | .block x body => simp only [Node.map, Extent.map, Node.mapAll_map body, Function.comp_apply]
  | .ifThen x c yes => simp only [Node.map, Extent.map, Node.map_map yes, Function.comp_apply]
  | .ifElse x c yes no =>
    simp only [Node.map, Extent.map, Node.map_map yes, Node.map_map no, Function.comp_apply]
  | .switch x e cases =>
    simp only [Node.map, Extent.map, Case.mapAll_map cases, Function.comp_apply]
  | .forLoop x init c u body =>
    simp only [Node.map, Extent.map, ForInit.map_map, Option.map_map, Node.map_map body,
      Function.comp_apply]
  | .whileLoop x c body => simp only [Node.map, Extent.map, Node.map_map body, Function.comp_apply]
  | .doWhile x body c => simp only [Node.map, Extent.map, Node.map_map body, Function.comp_apply]
  | .break x => rfl
  | .continue x => rfl
  | .return x value => simp only [Node.map, Extent.map, Option.map_map, Function.comp_apply]
  | .discard x => rfl

theorem Node.mapAll_map (ns : List (Node μ ε)) :
    Node.mapAll f' g' (Node.mapAll f g ns) = Node.mapAll (f' ∘ f) (g' ∘ g) ns := by
  match ns with
  | [] => rfl
  | n :: more => simp only [Node.mapAll, Node.map_map n, Node.mapAll_map more]

theorem Case.mapAll_map (cs : List (Case μ ε)) :
    Case.mapAll f' g' (Case.mapAll f g cs) = Case.mapAll (f' ∘ f) (g' ∘ g) cs := by
  match cs with
  | [] => rfl
  | .mk x label body :: more =>
    simp only [Case.mapAll, Case.map, Extent.map, Option.map_map, Node.mapAll_map body,
      Case.mapAll_map more, Function.comp_apply]

end

end MapTwice

open Grammar

/-! ## Leaving tokens out of a list -/

/-- What comes first counts on its own. -/
theorem Grammar.keptCount_succ (gone : Nat → Bool) (n : Nat) :
    keptCount gone (n + 1) =
      (if gone 0 then 0 else 1) + keptCount (fun i => gone (i + 1)) n := by
  induction n with
  | zero => simp [keptCount]
  | succ n ih =>
    rw [keptCount, ih, keptCount, Nat.add_assoc]

namespace Stream

/-- Significant tokens without those that are gone. A line break in front of one that is gone stands
in front of the next one then. -/
def leave (gone : Token → Bool) : Bool → List (Token × Bool) → List (Token × Bool)
  | _, [] => []
  | carried, (t, b) :: more =>
    if gone t then leave gone (carried || b) more
    else (t, carried || b) :: leave gone false more

section Filter

variable {gone : Token → Bool} (hgone : ∀ t, gone t = true → t.kind = .semicolon)
include hgone

theorem significant_filter (carried b : Bool) (tokens : List Token) :
    significant (carried || b) (tokens.filter fun t => !gone t) =
      leave gone carried (significant b tokens) := by
  induction tokens generalizing carried b with
  | nil => rfl
  | cons t tokens ih =>
    cases ht : gone t with
    | true =>
      have hk := hgone t ht
      have hignored : ¬t.isIgnored = true := by simp [Token.isIgnored, Kind.isIgnored, hk]
      have hbreak : t.kind ≠ .lineBreak := by
        rw [hk]
        exact Kind.noConfusion
      rw [List.filter_cons_of_neg (by simp [ht]), significant, if_neg hignored, if_neg hbreak,
        leave, if_pos ht, ← ih, Bool.or_false]
    | false =>
      rw [List.filter_cons_of_pos (by simp [ht]), significant, significant]
      split
      · exact ih carried b
      split
      · rw [← ih, Bool.or_true]
      · rw [leave, ht, if_neg Bool.false_ne_true, ← ih, Bool.or_false]

theorem takeWhile_filter (tokens : List Token) :
    (tokens.filter fun t => !gone t).takeWhile (fun t => t.kind ≠ .endOfInput) =
      (tokens.takeWhile fun t => t.kind ≠ .endOfInput).filter fun t => !gone t := by
  induction tokens with
  | nil => rfl
  | cons t tokens ih =>
    cases ht : gone t with
    | true =>
      have hend : t.kind ≠ .endOfInput := by
        rw [hgone t ht]
        exact Kind.noConfusion
      rw [List.filter_cons_of_neg (by simp [ht]), ih,
        List.takeWhile_cons_of_pos (by simpa using hend), List.filter_cons_of_neg (by simp [ht])]
    | false =>
      rw [List.filter_cons_of_pos (by simp [ht])]
      by_cases hend : t.kind = .endOfInput
      · rw [List.takeWhile_cons_of_neg (by simpa using hend),
          List.takeWhile_cons_of_neg (by simpa using hend)]
        rfl
      · rw [List.takeWhile_cons_of_pos (by simpa using hend),
          List.takeWhile_cons_of_pos (by simpa using hend), ih,
          List.filter_cons_of_pos (by simp [ht])]

theorem pairs_filter (tokens : List Token) :
    pairs (tokens.filter fun t => !gone t) = leave gone false (pairs tokens) := by
  rw [pairs, takeWhile_filter hgone]
  exact significant_filter hgone false false _

/-- The end of input stays where it is. -/
theorem finishOf_filter {tokens : List Token} (hend : ∃ t ∈ tokens, t.kind = .endOfInput) :
    finishOf (tokens.filter fun t => !gone t) = finishOf tokens := by
  have hfind : (tokens.filter fun t => !gone t).find? (fun t => t.kind = .endOfInput) =
      tokens.find? fun t => t.kind = .endOfInput := by
    rw [List.find?_filter]
    congr 1
    funext t
    cases ht : gone t with
    | true => simp [hgone t ht]
    | false => simp
  have hsome : (tokens.find? fun t => t.kind = .endOfInput).isSome = true := by
    obtain ⟨t, ht, hk⟩ := hend
    exact List.find?_isSome.2 ⟨t, ht, by simpa using hk⟩
  obtain ⟨t, ht⟩ := Option.isSome_iff_exists.1 hsome
  rw [finishOf, hfind, finishOf, ht]

end Filter

section Leave

variable {gone : Token → Bool} {g : Nat → Bool} {xs : List (Token × Bool)} (carried : Bool)

theorem length_leave (hg : ∀ (i : Nat) (x : Token × Bool), xs[i]? = some x → g i = gone x.1) :
    (leave gone carried xs).length = keptCount g xs.length := by
  induction xs generalizing carried g with
  | nil => rfl
  | cons x xs ih =>
    have hmore : ∀ (i : Nat) (y : Token × Bool), xs[i]? = some y → g (i + 1) = gone y.1 :=
      fun i y hy => hg (i + 1) y hy
    rw [List.length_cons, keptCount_succ, hg 0 x rfl, leave]
    cases gone x.1 with
    | true => rw [if_pos rfl, if_pos rfl, ih _ hmore, Nat.zero_add]
    | false =>
      rw [if_neg Bool.false_ne_true, if_neg Bool.false_ne_true, List.length_cons, ih _ hmore,
        Nat.add_comm]

/-- A token that is kept. It is behind a line break now if the token before it was. -/
theorem getElem?_leave {n : Nat} {t : Token} {b : Bool}
    (hg : ∀ (i : Nat) (x : Token × Bool), xs[i]? = some x → g i = gone x.1)
    (hx : xs[n]? = some (t, b)) (ht : gone t = false) :
    ∃ b', (leave gone carried xs)[keptCount g n]? = some (t, b') ∧
      (b' = b ∨ b' = true ∧ (n = 0 ∧ carried = true ∨ ∃ m, n = m + 1 ∧ g m = true)) := by
  induction xs generalizing carried g n with
  | nil => cases hx
  | cons x xs ih =>
    have hmore : ∀ (i : Nat) (y : Token × Bool), xs[i]? = some y → g (i + 1) = gone y.1 :=
      fun i y hy => hg (i + 1) y hy
    cases n with
    | zero =>
      cases hx
      rw [leave, ht, if_neg Bool.false_ne_true]
      refine ⟨carried || b, rfl, ?_⟩
      cases carried with
      | true => exact .inr ⟨rfl, .inl ⟨rfl, rfl⟩⟩
      | false => exact .inl rfl
    | succ n =>
      rw [keptCount_succ, hg 0 x rfl, leave]
      cases hgone : gone x.1 with
      -- The line break before the first token is carried on.
      | true =>
        obtain ⟨b', hb', hcases⟩ := ih (carried || x.2) hmore hx
        rw [if_pos rfl, if_pos rfl, Nat.zero_add]
        refine ⟨b', hb', hcases.imp_right fun h => ⟨h.1, .inr ?_⟩⟩
        rcases h.2 with ⟨rfl, -⟩ | ⟨m, rfl, hm⟩
        · exact ⟨0, rfl, (hg 0 x rfl).trans hgone⟩
        · exact ⟨m + 1, rfl, hm⟩
      | false =>
        obtain ⟨b', hb', hcases⟩ := ih false hmore hx
        rw [if_neg Bool.false_ne_true, if_neg Bool.false_ne_true, Nat.add_comm]
        refine ⟨b', hb', hcases.imp_right fun h => ⟨h.1, .inr ?_⟩⟩
        rcases h.2 with ⟨-, hno⟩ | ⟨m, rfl, hm⟩
        · cases hno
        · exact ⟨m + 1, rfl, hm⟩

end Leave

/-- The tokens that are gone are single semicolons in front of what ends a statement by itself. -/
structure Omits (gone : Token → Bool) (tokens : List Token) : Prop where
  kind : ∀ t, gone t = true → t.kind = .semicolon
  single : ∀ i, gone ((ofTokens tokens).token i) = true →
    ((ofTokens tokens).token (i - 1)).kind ≠ .semicolon
  closed : ∀ i, gone ((ofTokens tokens).token i) = true →
    ((ofTokens tokens).token (i + 1)).kind.closes = true

namespace Omits

variable {gone : Token → Bool} {tokens : List Token}

theorem agrees (gone : Token → Bool) (tokens : List Token) (i : Nat) (x : Token × Bool)
    (hx : (pairs tokens)[i]? = some x) : gone ((ofTokens tokens).token i) = gone x.1 :=
  congrArg gone (token_of_pair hx)

/-- The symbols of the tokens with those of the tokens that are left. -/
def omission (h : Omits gone tokens) : Omission where
  gone i := gone ((ofTokens tokens).token i)
  old := (ofTokens tokens).symbols
  new := (ofTokens (tokens.filter fun t => !gone t)).symbols
  shows := by
    intro n s hs hn
    obtain ⟨hx, hs⟩ := exists_token hs
    obtain ⟨b', hb', hcases⟩ := getElem?_leave false (agrees gone tokens) hx hn
    refine ⟨Symbol.ofToken b' ((ofTokens tokens).token n), ?_, ?_⟩
    · change ((pairs _).map _)[_]? = _
      rw [pairs_filter h.kind, List.getElem?_map, hb']
      rfl
    · rcases hcases with rfl | ⟨rfl, ⟨-, hno⟩ | ⟨m, rfl, hm⟩⟩
      · exact .inl hs.symm
      · cases hno
      · rw [hs]
        exact .inr ⟨h.closed m hm, rfl⟩
  length := by
    change ((pairs _).map _).length = keptCount _ ((pairs tokens).map _).length
    rw [List.length_map, List.length_map, pairs_filter h.kind]
    exact length_leave false (agrees gone tokens)
  semicolon := by
    intro n hn
    have hk := h.kind _ hn
    have hne : ((ofTokens tokens).token n).kind ≠ .endOfInput := by
      rw [hk]
      exact Kind.noConfusion
    obtain ⟨b, hx⟩ := exists_pair hne
    refine ⟨Symbol.ofToken b ((ofTokens tokens).token n), ?_, hk⟩
    change ((pairs tokens).map _)[n]? = _
    rw [List.getElem?_map, hx]
    rfl
  closed := by
    intro n s hn hs
    rw [(exists_token hs).2]
    exact h.closed n hn
  single := by
    intro n s hn hs
    rw [(exists_token hs).2]
    exact h.single (n + 1) hn

section Places

variable (h : Omits gone tokens) {i : Nat}
include h

/-- The first token is not gone: there would be another semicolon in front of it. -/
theorem exists_pred (hi : gone ((ofTokens tokens).token i) = true) :
    ∃ j, i = j + 1 ∧ gone ((ofTokens tokens).token j) = false := by
  have hsingle := h.single i hi
  cases i with
  | zero => exact absurd (h.kind _ hi) hsingle
  | succ j => exact ⟨j, rfl, Bool.eq_false_iff.2 fun hj => hsingle (h.kind _ hj)⟩

variable (hend : ∃ t ∈ tokens, t.kind = .endOfInput)
include hend

/-- A token that is kept has a new place. -/
theorem token_count (hi : gone ((ofTokens tokens).token i) = false) :
    (ofTokens (tokens.filter fun t => !gone t)).token (h.omission.count i) =
      (ofTokens tokens).token i := by
  cases hx : (pairs tokens)[i]? with
  | some x =>
    rw [token_of_pair hx] at hi ⊢
    obtain ⟨b', hb', -⟩ := getElem?_leave false (agrees gone tokens) hx hi
    rw [← pairs_filter h.kind] at hb'
    exact token_of_pair (x := (x.1, b')) hb'
  -- Behind the last token there is the end of input in both lists.
  | none =>
    have hle : h.omission.new.length ≤ h.omission.count i := by
      rw [h.omission.length]
      refine Omission.count_mono ?_
      change ((pairs tokens).map _).length ≤ i
      rw [List.length_map]
      exact List.getElem?_eq_none_iff.1 hx
    have hnone : (pairs (tokens.filter fun t => !gone t))[h.omission.count i]? = none := by
      refine List.getElem?_eq_none ?_
      have hnew : h.omission.new.length = (pairs (tokens.filter fun t => !gone t)).length :=
        List.length_map _
      rwa [hnew] at hle
    rw [token_of_none hx, token_of_none hnone, finishOf_filter h.kind hend]

/-- In front of the place of a token that is gone stands the token before it. -/
theorem token_before (hi : gone ((ofTokens tokens).token i) = true) :
    (ofTokens (tokens.filter fun t => !gone t)).token (h.omission.count i - 1) =
      (ofTokens tokens).token (i - 1) := by
  obtain ⟨j, rfl, hj⟩ := h.exists_pred hi
  rw [Omission.count_of_kept (o := h.omission) hj, Nat.add_sub_cancel, h.token_count hend hj,
    Nat.add_sub_cancel]

theorem token_moved (i : Nat) :
    (ofTokens (tokens.filter fun t => !gone t)).token (h.omission.moved i) =
      (ofTokens tokens).token (if gone ((ofTokens tokens).token i) then i - 1 else i) := by
  cases hi : gone ((ofTokens tokens).token i) with
  | true =>
    rw [if_pos rfl, Omission.moved, Omission.count_of_gone (o := h.omission) hi]
    exact h.token_before hend hi
  | false =>
    rw [if_neg Bool.false_ne_true, Omission.moved_of_kept (o := h.omission) hi]
    exact h.token_count hend hi

end Places

end Omits

end Stream

/-! ## Semicolons that are missed -/

namespace Grammar.Omission

variable (o : Omission)

theorem reverse_missed (n : Nat) :
    (o.missed n).reverse = ((List.range n).filter o.gone).map fun i => ⟨o.count i, .semicolon⟩ := by
  induction n with
  | zero => rfl
  | succ n ih =>
    rw [List.range_succ, List.filter_append, List.map_append, ← ih]
    cases hn : o.gone n with
    | true => rw [missed_of_gone hn, List.reverse_cons, List.filter_cons_of_pos hn]; rfl
    | false => rw [missed_of_kept hn, List.filter_cons_of_neg (by simp [hn])]; simp

/-- Behind the last symbol none is missed. -/
theorem missed_of_le {n : Nat} (h : o.old.length ≤ n) : o.missed n = o.missed o.old.length := by
  induction n, h using Nat.le_induction with
  | base => rfl
  | succ n hle ih =>
    have hn : o.gone n = false := by
      refine Bool.eq_false_iff.2 fun hgone => ?_
      obtain ⟨x, hx, -⟩ := o.semicolon n hgone
      rw [List.getElem?_eq_none hle] at hx
      cases hx
    rw [missed_of_kept hn, ih]

end Grammar.Omission

/-! ## Documents -/

theorem Node.terminatorsAll_eq {μ ε : Type} (ns : List (Node μ ε)) :
    Node.terminatorsAll ns = ns.flatMap Node.terminators := by
  induction ns with
  | nil => rfl
  | cons n ns ih => rw [Node.terminatorsAll, ih, List.flatMap_cons]

theorem Module.mapWith_mapWith {μ ν ξ ε η ζ : Type} (f : μ → ν) (f' : ν → ξ) (g : ε → η)
    (g' : η → ζ) (m : Module μ ε) :
    Module.mapWith f' g' (Module.mapWith f g m) = Module.mapWith (f' ∘ f) (g' ∘ g) m := by
  rw [mapWith, mapWith, mapWith, List.map_map]
  refine List.map_congr_left fun x _ => ?_
  cases x with
  | item n => exact congrArg Fragment.item (n.map_map f f' g g')
  | loose es => exact congrArg Fragment.loose List.map_map

/-- Where expressions are annotated with extents, their marks change with the others. -/
theorem Module.mapWith_extent {μ ν ξ : Type} (f : μ → ν) (f' : ν → ξ)
    (m : Module μ (Expr (Extent μ))) :
    Module.mapWith f' (Expr.map (Extent.map f')) (Module.mapWith f (Expr.map (Extent.map f)) m) =
      Module.mapWith (f' ∘ f) (Expr.map (Extent.map (f' ∘ f))) m := by
  have htree : Expr.map (Extent.map f') ∘ Expr.map (Extent.map f) =
      Expr.map (Extent.map (f' ∘ f)) := funext fun e => Expr.map_map _ _ e
  rw [Module.mapWith_mapWith, htree]

theorem Lexer.exists_endOfInput (source : Text) : ∃ t ∈ lex source false, t.kind = .endOfInput := by
  obtain ⟨body, q, hbody, -⟩ := tokens_shape Position.start source
  have htokens : tokens source = body ++ [Token.endAt q] := hbody
  refine ⟨Token.endAt q, ?_, rfl⟩
  rw [lex, htokens]
  simp [Token.isIgnored, Token.endAt, Kind.isIgnored]

namespace Document

/-- A parse shows the marks of its tree as tokens. -/
theorem module_of_run {tokens : List Token} {source : Text} {o : Options} {t : Session}
    (h : ((Session.start tokens o).setSource source).run = (t, none)) :
    t.report.module = Module.mapWith (Stream.ofTokens tokens).token
      (Expr.map (Extent.map (Stream.ofTokens tokens).token)) (tree tokens source o) := by
  rw [Session.report, Session.module, Session.stream_of_run h, tree, h]
  rfl

/-- A parse that has read items has them for its tree. -/
theorem tree_of_reads {tokens : List Token} {source : Text} {o : Options} {t : Session}
    {ns : List Item} (h : ((Session.start tokens o).setSource source).run = (t, none))
    (hreads : ((Session.start tokens o).setSource source).Reads t ns) :
    tree tokens source o = ns.map .item := by
  have hpieces : t.pieces = (ns.map .item).reverse := hreads.pieces.trans (List.append_nil _)
  rw [tree, h, hpieces, List.reverse_reverse]

/-- The significant token with the number `i` stands alone at the end of a statement, a declaration
or a member, in front of a closing brace, the end of input, a qualifier or another keyword. -/
structure Omissible (source : Text) (i : Nat) : Prop where
  ends : i ∈ (tree (Lexer.lex source false) source Options.all).items.flatMap Node.terminators
  single : ((Stream.ofSource source).token (i - 1)).kind ≠ .semicolon
  closed : ((Stream.ofSource source).token (i + 1)).kind.closes = true

section Rest

variable {gone : Token → Bool} {tokens : List Token} {source : Text} (h : Stream.Omits gone tokens)
include h

/-- A parse without edits goes through on the tokens that are left. -/
theorem run_restored {report : Report} (hparse : parseTokens tokens source Options.all = .ok report)
    (hedits : report.edits = [])
    (hends : ∀ i, gone ((Stream.ofTokens tokens).token i) = true →
      i ∈ (tree tokens source Options.all).items.flatMap Node.terminators) :
    ∃ t, ((Session.start (tokens.filter fun t => !gone t) Options.all).setSource source).run =
        (t, none) ∧
      tree (tokens.filter fun t => !gone t) source Options.all =
        Module.mapWith h.omission.moved h.omission.tree (tree tokens source Options.all) ∧
      t.state.repairs = h.omission.missed tokens.length := by
  obtain ⟨t, ht, rfl⟩ := parseTokens_eq_ok.1 hparse
  have hrepairs : t.state.repairs = [] :=
    Session.repairs_of_edits (Session.options_of_run ht) hedits
  obtain ⟨ns, hns⟩ :=
    Session.advance_restored (o := h.omission) _ ht (Nat.lt_succ_self _) rfl hrepairs
  have hm := tree_of_reads ht hns.reads
  have hcovers : h.omission.Covers (Node.terminatorsAll ns)
      ((Session.start tokens Options.all).setSource source).state t.state := by
    intro i hi _ _
    have hmem := hends i hi
    rwa [hm, Module.items_map_item, ← Node.terminatorsAll_eq] at hmem
  have hstart : h.omission.Beside ((Session.start tokens Options.all).setSource source).state
      ((Session.start (tokens.filter fun t => !gone t) Options.all).setSource source).state :=
    ⟨rfl, rfl, rfl, rfl⟩
  obtain ⟨t', ht', hreads', hbeside⟩ := hns.restores hcovers hstart (Nat.lt_succ_self _)
  refine ⟨t', ht', ?_, ?_⟩
  · rw [tree_of_reads ht' hreads', hm, Module.mapWith_map_item, Node.mapAll_eq_map]
  -- All semicolons that are gone have been missed where the symbols end.
  · have hpassed : h.omission.old.length ≤ t.state.passed :=
      List.drop_eq_nil_iff.1 (hbeside.rest.symm.trans hns.reads.rest)
    rw [hbeside.repairs, Omission.missed_of_le _ hpassed]
    exact (h.omission.missed_of_le (Stream.length_symbols_le tokens)).symm

variable (hend : ∃ t ∈ tokens, t.kind = .endOfInput)
include hend

/-- Where a mark is gone, the token before it is shown. -/
theorem module_restored (m : Module Nat Tree) :
    let shown := fun i => (Stream.ofTokens tokens).token
      (if gone ((Stream.ofTokens tokens).token i) then i - 1 else i)
    Module.mapWith (Stream.ofTokens (tokens.filter fun t => !gone t)).token
        (Expr.map (Extent.map (Stream.ofTokens (tokens.filter fun t => !gone t)).token))
        (Module.mapWith h.omission.moved h.omission.tree m) =
      Module.mapWith shown (Expr.map (Extent.map shown)) m := by
  intro shown
  have hshown : (Stream.ofTokens (tokens.filter fun t => !gone t)).token ∘ h.omission.moved =
      shown :=
    funext (h.token_moved hend)
  rw [← hshown]
  exact Module.mapWith_extent _ _ m

/-- Each semicolon that is missed becomes an edit behind the token before it. -/
theorem edits_restored (n : Nat) :
    Correction.allEdits ((h.omission.missed n).reverse.map
      (Correction.ofRepair (Stream.ofTokens (tokens.filter fun t => !gone t)))) =
      ((List.range n).filter fun i => gone ((Stream.ofTokens tokens).token i)).map fun i =>
        Correction.after ((Stream.ofTokens tokens).token (i - 1)) (Text.ascii ";") := by
  rw [Omission.reverse_missed, Correction.allEdits, List.flatMap_map, List.flatMap_map,
    List.map_eq_flatMap]
  refine List.flatMap_congr fun i hi => ?_
  have hgone : gone ((Stream.ofTokens tokens).token i) = true := (List.mem_filter.1 hi).2
  rw [← h.token_before hend hgone]
  rfl

end Rest

/-- Under all options everything that was found missing becomes an edit. -/
theorem edits_of_run {tokens : List Token} {source : Text} {t : Session}
    (h : ((Session.start tokens Options.all).setSource source).run = (t, none)) :
    t.report.edits = Correction.allEdits
      (t.state.repairs.reverse.map (Correction.ofRepair (Stream.ofTokens tokens))) := by
  have hoptions : t.options = Options.all := Session.options_of_run h
  have hstream : t.stream = Stream.ofTokens tokens := Session.stream_of_run h
  rw [Session.report, Session.corrections, hoptions, hstream, Correction.enabled_map,
    Repair.chosen_all]

end Document

end ShaderRepair
