import ShaderRepair.Cursor
import ShaderRepair.Grammar.Run

/-!
# Cursors

The symbols of a parse stand in a list of tokens, with tokens between them that the grammar does not
see. A cursor is a place in that list; what is ahead is found by stepping over tokens from there.
Every token is looked up by its place, which may fail. This file contains:
- `Cursor.symbol?` and `Cursor.after`: finding the next symbol and passing it;
- `Cursor.Declares`, the lookahead for declarations;
- `Cursor.Faces`, which says that certain symbols are ahead of a cursor. Then the tokens are found
  at their places, and reading them meets these symbols.
-/

namespace ShaderRepair

namespace Cursor

/-! ## Symbols at places -/

section Places

variable (ts : List Token)

/-- The symbol ahead. It is broken off if a strict cursor stops earlier, at a line break. The end of
input looks the same whatever else the token says. -/
def symbol? (i : Nat) : Option Symbol := do
  let t ← ts[skip ts false i]?
  let u ← ts[skip ts true i]?
  return if t.kind = .endOfInput then Symbol.finish else Symbol.ofToken (u.kind = .lineBreak) t

/-- The cursor behind the symbol ahead. It does not move at the end of input. -/
def after (i : Nat) : Nat :=
  match ts[skip ts false i]? with
  | some t => if t.kind = .endOfInput then i else skip ts false i + 1
  | none => i

/-- Whether a name follows array dimensions, `depth` of whose brackets are open already, from the
symbol at place `i` on. -/
inductive Scans : Nat → Nat → Bool → Prop
  | name {i : Nat} {t : Token} (ht : ts[i]? = some t) (hk : t.kind ≠ .leftBracket) :
    Scans 0 i (t.kind = .identifier)
  | opening {depth i : Nat} {b : Bool} {t : Token} (ht : ts[i]? = some t)
    (hk : t.kind = .leftBracket) (h : Scans (depth + 1) (next ts i) b) : Scans depth i b
  | closing {depth i : Nat} {b : Bool} {t : Token} (ht : ts[i]? = some t)
    (hk : t.kind = .rightBracket) (h : Scans depth (next ts i) b) : Scans (depth + 1) i b
  | stop {depth i : Nat} {t : Token} (ht : ts[i]? = some t)
    (hk : t.kind ∈ [.endOfInput, .semicolon, .leftBrace, .rightBrace]) : Scans (depth + 1) i false
  | inside {depth i : Nat} {b : Bool} {t : Token} (ht : ts[i]? = some t)
    (hk : t.kind ∉ [.endOfInput, .semicolon, .leftBrace, .rightBrace, .leftBracket, .rightBracket])
    (h : Scans (depth + 1) (next ts i) b) : Scans (depth + 1) i b

/-- Whether a declaration starts at the cursor. -/
inductive Declares : Nat → Bool → Prop
  | other {i : Nat} {t : Token} (ht : ts[skip ts false i]? = some t) (hk : t.kind ≠ .identifier) :
    Declares i false
  | name {i : Nat} {b : Bool} {t : Token} (ht : ts[skip ts false i]? = some t)
    (hk : t.kind = .identifier) (h : Scans ts 0 (next ts (skip ts false i)) b) : Declares i b

end Places

/-! ## What is ahead -/

/-- The tokens up to the first end of input that make symbols, each with whether a line break
precedes it; `broken` tells about a line break that has been passed already. -/
def seen (broken : Bool) (ts : List Token) : List (Token × Bool) :=
  Stream.significant broken (ts.takeWhile fun t => t.kind ≠ .endOfInput)

/-- The symbols of tokens, up to the first end of input. -/
def symbols (broken : Bool) (ts : List Token) : List Symbol :=
  (seen broken ts).map fun (t, broken) => Symbol.ofToken broken t

/-- The cursor is in the list, and these symbols are ahead of it. -/
structure Faces (ts : List Token) (i : Nat) (xs : List Symbol) : Prop where
  inside : i < ts.length
  ahead : symbols false (ts.drop i) = xs

/-- There is an end of input at the end. -/
def Ended (ts : List Token) : Prop :=
  ∃ t, ts.getLast? = some t ∧ t.kind = .endOfInput

theorem ended_ended (tokens : List Token) : Ended (ended tokens) := by
  unfold ended
  split
  · next t ht =>
    split
    · next hk => exact ⟨t, ht, hk⟩
    · exact ⟨_, List.getLast?_concat, rfl⟩
  · exact ⟨_, rfl, rfl⟩

section Seen

variable {t : Token} {ts : List Token} {b : Bool}

theorem seen_endOfInput (ht : t.kind = .endOfInput) : seen b (t :: ts) = [] := by
  simp [seen, ht, Stream.significant]

theorem kind_of_ignored (ht : t.isIgnored = true) : t.kind ≠ .endOfInput := by
  intro h
  simp [Token.isIgnored, h, Kind.isIgnored] at ht

theorem seen_ignored (ht : t.isIgnored = true) : seen b (t :: ts) = seen b ts := by
  simp [seen, kind_of_ignored ht, Stream.significant, ht]

theorem seen_lineBreak (ht : t.kind = .lineBreak) : seen b (t :: ts) = seen true ts := by
  have hign : t.isIgnored = false := by simp [Token.isIgnored, ht, Kind.isIgnored]
  simp [seen, Stream.significant, ht, hign]

theorem seen_cons (ht : stepsOver false t = false) (hne : t.kind ≠ .endOfInput) :
    seen b (t :: ts) = (t, b) :: seen false ts := by
  simp only [stepsOver, Bool.not_false, Bool.true_and, Bool.or_eq_false_iff,
    decide_eq_false_iff_not] at ht
  simp [seen, hne, Stream.significant, ht.1, ht.2]

end Seen

/-! ## Reading -/

section Skip

variable {ts : List Token} {strict : Bool} {i : Nat}

theorem skip_last (h : ¬ i < ts.length - 1) : skip ts strict i = i := by
  rw [skip, dif_neg h]

theorem skip_over (h : i < ts.length - 1) (hi : i < ts.length)
    (hs : stepsOver strict ts[i] = true) : skip ts strict i = skip ts strict (i + 1) := by
  rw [skip, dif_pos h, if_pos hs]

theorem skip_stop (h : i < ts.length - 1) (hi : i < ts.length)
    (hs : stepsOver strict ts[i] = false) : skip ts strict i = i := by
  rw [skip, dif_pos h, if_neg (by simp [hs])]

theorem le_skip (ts : List Token) (strict : Bool) (i : Nat) : i ≤ skip ts strict i := by
  fun_induction skip ts strict i <;> omega

theorem le_after (ts : List Token) (i : Nat) : i ≤ after ts i := by
  have hle := le_skip ts false i
  unfold after
  split
  · split <;> omega
  · exact Nat.le_refl i

end Skip

/-! ## Determinism -/

theorem Scans.deterministic {ts : List Token} {depth i : Nat} {b b' : Bool}
    (h : Scans ts depth i b) (h' : Scans ts depth i b') : b = b' := by
  induction h generalizing b' with
  | name ht hk =>
    cases h' with
    | name ht' hk' => rw [Option.some.inj (ht.symm.trans ht')]
    | opening ht' hk' h' => exact absurd hk' (Option.some.inj (ht.symm.trans ht') ▸ hk)
  | opening ht hk h ih =>
    cases h' with
    | opening ht' hk' h' => exact ih h'
    | name ht' hk' => exact absurd hk (Option.some.inj (ht'.symm.trans ht) ▸ hk')
    | closing ht' hk' h' | stop ht' hk' | inside ht' hk' h' =>
      rw [Option.some.inj (ht'.symm.trans ht), hk] at hk'
      simp at hk'
  | closing ht hk h ih =>
    cases h' with
    | closing ht' hk' h' => exact ih h'
    | opening ht' hk' h' | stop ht' hk' | inside ht' hk' h' =>
      rw [Option.some.inj (ht'.symm.trans ht), hk] at hk'
      simp at hk'
  | stop ht hk =>
    cases h' with
    | stop ht' hk' => rfl
    | opening ht' hk' h' | closing ht' hk' h' =>
      rw [Option.some.inj (ht.symm.trans ht'), hk'] at hk
      simp at hk
    | inside ht' hk' h' =>
      rw [Option.some.inj (ht'.symm.trans ht)] at hk'
      exact absurd (List.mem_append_left [_, _] hk) hk'
  | inside ht hk h ih =>
    cases h' with
    | inside ht' hk' h' => exact ih h'
    | opening ht' hk' h' | closing ht' hk' h' =>
      rw [Option.some.inj (ht.symm.trans ht'), hk'] at hk
      simp at hk
    | stop ht' hk' =>
      rw [Option.some.inj (ht'.symm.trans ht)] at hk'
      exact absurd (List.mem_append_left [_, _] hk') hk

theorem Declares.deterministic {ts : List Token} {i : Nat} {b b' : Bool}
    (h : Declares ts i b) (h' : Declares ts i b') : b = b' := by
  cases h with
  | other ht hk =>
    cases h' with
    | other ht' hk' => rfl
    | name ht' hk' h' => exact absurd hk' (Option.some.inj (ht.symm.trans ht') ▸ hk)
  | name ht hk h =>
    cases h' with
    | other ht' hk' => exact absurd hk (Option.some.inj (ht'.symm.trans ht) ▸ hk')
    | name ht' hk' h' => exact h.deterministic h'

variable {ts : List Token} {i : Nat} {xs : List Symbol}

theorem Ended.kind_last (hts : Ended ts) (hi : i < ts.length) (h : ¬ i < ts.length - 1) :
    (ts[i]).kind = .endOfInput := by
  obtain ⟨t, ht, hk⟩ := hts
  rw [List.getLast?_eq_getElem?, List.getElem?_eq_some_iff] at ht
  obtain ⟨hlt, rfl⟩ := ht
  have heq : i = ts.length - 1 := by omega
  subst heq
  exact hk

/-- The token ahead of a cursor in the list: the first end of input if nothing is seen before it,
and otherwise the first one that is seen. A strict cursor stops there too, or else at a line break
before it. By induction on the tokens left. -/
theorem exists_ahead (hts : Ended ts) (hi : i < ts.length) (b : Bool) :
    ∃ t u, ts[skip ts false i]? = some t ∧ ts[skip ts true i]? = some u ∧
      (u.kind = .lineBreak ∨ u = t) ∧
      (t.kind = .endOfInput ∧ seen b (ts.drop i) = [] ∧
          (ts.drop i).find? (fun t => t.kind = .endOfInput) = some t ∨
        t.kind ≠ .endOfInput ∧ skip ts false i < ts.length - 1 ∧
          seen b (ts.drop i) =
            (t, b || u.kind = .lineBreak) :: seen false (ts.drop (skip ts false i + 1)) ∧
          (ts.drop i).find? (fun t => t.kind = .endOfInput) =
            (ts.drop (skip ts false i + 1)).find? fun t => t.kind = .endOfInput) := by
  induction hn : ts.length - i generalizing i b with
  | zero => omega
  | succ n ih =>
    have hdrop : ts.drop i = ts[i] :: ts.drop (i + 1) := List.drop_eq_getElem_cons hi
    -- An end of input is looked for behind a token that is none.
    have hfind : (ts[i]).kind ≠ .endOfInput →
        (ts[i] :: ts.drop (i + 1)).find? (fun t => t.kind = .endOfInput) =
          (ts.drop (i + 1)).find? fun t => t.kind = .endOfInput :=
      fun hne => List.find?_cons_of_neg (by simpa using hne)
    by_cases hlast : i < ts.length - 1
    · by_cases hover : stepsOver false ts[i] = true
      · rw [skip_over hlast hi hover, hdrop]
        by_cases hign : (ts[i]).isIgnored = true
        · -- Both cursors step over it.
          have hstrict : stepsOver true ts[i] = true := by simp [stepsOver, hign]
          rw [skip_over hlast hi hstrict, seen_ignored hign, hfind (kind_of_ignored hign)]
          exact ih (by omega) b (by omega)
        · -- The one that looks for line breaks has found one here.
          have hbreak : (ts[i]).kind = .lineBreak := by simpa [stepsOver, hign] using hover
          have hstrict : stepsOver true ts[i] = false := by simp [stepsOver, hign]
          obtain ⟨t, u, ht, -, -, hcase⟩ := ih (i := i + 1) (by omega) true (by omega)
          rw [skip_stop hlast hi hstrict, seen_lineBreak hbreak, hfind (by rw [hbreak]; decide)]
          refine ⟨t, ts[i], ht, List.getElem?_eq_getElem hi, .inl hbreak, ?_⟩
          simpa [hbreak] using hcase
      · -- Both stop at a symbol, or at an end of input that is not the last token.
        rw [Bool.not_eq_true] at hover
        have hign : (ts[i]).isIgnored = false ∧ (ts[i]).kind ≠ .lineBreak := by
          simpa [stepsOver] using hover
        have hstrict : stepsOver true ts[i] = false := by simp [stepsOver, hign.1]
        rw [skip_stop hlast hi hover, skip_stop hlast hi hstrict, hdrop]
        have hti := List.getElem?_eq_getElem hi
        refine ⟨ts[i], ts[i], hti, hti, .inr rfl, ?_⟩
        by_cases hk : (ts[i]).kind = .endOfInput
        · exact .inl ⟨hk, seen_endOfInput hk, List.find?_cons_of_pos (decide_eq_true hk)⟩
        · refine .inr ⟨hk, hlast, ?_, hfind hk⟩
          rw [seen_cons hover hk]
          simp [hign.2]
    · have hk := hts.kind_last hi hlast
      rw [skip_last hlast, skip_last hlast, hdrop]
      exact ⟨ts[i], ts[i], List.getElem?_eq_getElem hi, List.getElem?_eq_getElem hi, .inr rfl,
        .inl ⟨hk, seen_endOfInput hk, List.find?_cons_of_pos (decide_eq_true hk)⟩⟩

/-- At the end of input a cursor stays, and otherwise it goes on to the symbols that follow. -/
theorem Faces.read (hts : Ended ts) (h : Faces ts i xs) :
    symbol? ts i = some (xs.headD Symbol.finish) ∧ Faces ts (after ts i) xs.tail := by
  obtain ⟨hi, rfl⟩ := h
  obtain ⟨t, u, ht, hu, -, ⟨hk, hnil, -⟩ | ⟨hk, hlt, hcons, -⟩⟩ := exists_ahead hts hi false
  · rw [symbol?, after, ht, hu, symbols, hnil]
    simp only [Option.bind_eq_bind, Option.bind_some, hk, if_true]
    exact ⟨rfl, hi, by rw [symbols, hnil]; rfl⟩
  · rw [symbol?, after, ht, hu, symbols, hcons]
    simp only [Option.bind_eq_bind, Option.bind_some, hk, if_false]
    exact ⟨by simp, by omega, rfl⟩

/-- The symbol after the next one is the next one behind it. -/
theorem Faces.second (hts : Ended ts) (h : Faces ts i xs) :
    symbol? ts (after ts i) = some (xs.tail.headD Symbol.finish) :=
  ((h.read hts).2.read hts).1

/-! ## Lookahead -/

/-- The token at the place where a cursor stops. -/
theorem Faces.exists_token (hts : Ended ts) (h : Faces ts i xs) :
    ∃ t, ts[skip ts false i]? = some t ∧ t.kind = (xs.headD Symbol.finish).kind ∧
      (xs ≠ [] → t.kind ≠ .endOfInput ∧
        next ts (skip ts false i) = skip ts false (after ts i)) := by
  obtain ⟨hi, rfl⟩ := h
  obtain ⟨t, u, ht, hu, -, ⟨hk, hnil, -⟩ | ⟨hk, hlt, hcons, -⟩⟩ := exists_ahead hts hi false
  · have hsymbols : symbols false (ts.drop i) = [] := by rw [symbols, hnil]; rfl
    exact ⟨t, ht, by rw [hsymbols, hk]; rfl, fun hne => absurd hsymbols hne⟩
  · refine ⟨t, ht, by rw [symbols, hcons]; rfl, fun _ => ⟨hk, ?_⟩⟩
    rw [next, if_pos hlt, after, ht]
    simp only [hk, if_false]

/-- No symbol ahead is the end of input. -/
theorem Faces.kind_ne (hts : Ended ts) (h : Faces ts i xs) (hxs : xs ≠ []) :
    (xs.headD Symbol.finish).kind ≠ .endOfInput := by
  obtain ⟨t, -, hk, hmore⟩ := h.exists_token hts
  exact hk ▸ (hmore hxs).1

/-- The scan for a name ends, and finds out what the symbols ahead tell. -/
theorem Faces.scans (hts : Ended ts) (h : Faces ts i xs) (depth : Nat) :
    Scans ts depth (skip ts false i) (Symbol.nameAfterDims depth xs) := by
  induction xs generalizing i depth with
  | nil =>
    obtain ⟨t, ht, hk, -⟩ := h.exists_token hts
    have hend : t.kind = .endOfInput := hk
    cases depth with
    | zero =>
      have hscan := Scans.name ht (by simp [hend])
      simpa [hend, Symbol.nameAfterDims] using hscan
    | succ depth => exact .stop ht (by simp [hend])
  | cons x xs ih =>
    obtain ⟨t, ht, hk, hmore⟩ := h.exists_token hts
    obtain ⟨hne, hnext⟩ := hmore (List.cons_ne_nil x xs)
    -- Past this token the scan faces the symbols that are left.
    have hscans : ∀ depth, Scans ts depth (next ts (skip ts false i))
        (Symbol.nameAfterDims depth xs) := by
      rw [hnext]
      exact ih (h.read hts).2
    replace hk : t.kind = x.kind := hk
    cases depth with
    | zero =>
      rw [Symbol.nameAfterDims]
      split
      · next hx => exact .opening ht (hk.trans hx) (hscans 1)
      · next hx =>
        rw [← hk]
        exact .name ht (hk ▸ hx)
    | succ depth =>
      rw [Symbol.nameAfterDims]
      split
      · next hx => exact .opening ht (hk.trans hx) (hscans (depth + 2))
      · next hx => exact .closing ht (hk.trans hx) (hscans depth)
      · next hx => exact .stop ht (by simp [hk, hx])
      · next hx => exact .stop ht (by simp [hk, hx])
      · next hx => exact .stop ht (by simp [hk, hx])
      · next hopen hclose hsemicolon hleft hright =>
        refine .inside ht ?_ (hscans (depth + 1))
        simp only [List.mem_cons, List.not_mem_nil, or_false, not_or, hk]
        exact ⟨hk ▸ hne, hsemicolon, hleft, hright, hopen, hclose⟩

/-- So does the lookahead for a declaration. -/
theorem Faces.declares (hts : Ended ts) (h : Faces ts i xs) :
    Declares ts i (Symbol.startsDeclaration xs) := by
  obtain ⟨t, ht, hk, hmore⟩ := h.exists_token hts
  cases xs with
  | nil =>
    have hend : t.kind = .endOfInput := hk
    exact .other ht (by simp [hend])
  | cons x xs =>
    replace hk : t.kind = x.kind := hk
    rw [Symbol.startsDeclaration]
    by_cases hx : x.kind = .identifier
    · rw [decide_eq_true hx, Bool.true_and]
      refine .name ht (hk.trans hx) ?_
      rw [(hmore (List.cons_ne_nil x xs)).2]
      exact (h.read hts).2.scans hts 0
    · rw [decide_eq_false hx, Bool.false_and]
      exact .other ht (hk ▸ hx)

/-! ## From the start -/

/-- An end of input behind the tokens is not seen. -/
theorem seen_ended (tokens : List Token) : seen false (ended tokens) = seen false tokens := by
  unfold ended
  split
  · split
    · rfl
    · rw [seen, seen, List.takeWhile_append]
      split
      · next hall =>
        rw [(List.takeWhile_prefix _).eq_of_length hall]
        simp [Token.endAt]
      · rfl
  · next ht =>
    rw [List.getLast?_eq_none_iff.1 ht]
    rfl

theorem length_le_ended (tokens : List Token) : tokens.length ≤ (ended tokens).length := by
  unfold ended
  split
  · split
    · exact Nat.le_refl _
    · simp
  · next ht => simp [List.getLast?_eq_none_iff.1 ht]

theorem length_ended_pos (tokens : List Token) : 0 < (ended tokens).length := by
  obtain ⟨t, ht, -⟩ := ended_ended tokens
  exact List.length_pos_of_mem (List.mem_of_getLast? ht)

/-- At first all symbols are ahead. -/
theorem faces_ended (tokens : List Token) :
    Faces (ended tokens) 0 (Stream.ofTokens tokens).symbols :=
  ⟨length_ended_pos tokens, congrArg (List.map _) (seen_ended tokens)⟩

/-- The first end of input is the one that the stream knows. -/
theorem find?_ended (tokens : List Token) :
    (ended tokens).find? (fun t => t.kind = .endOfInput) = some (Stream.finishOf tokens) := by
  unfold ended Stream.finishOf
  cases ht : tokens.getLast? with
  | none =>
    rw [List.getLast?_eq_none_iff.1 ht]
    rfl
  | some t =>
    simp only
    by_cases hk : t.kind = .endOfInput
    · rw [if_pos hk]
      have hsome : (tokens.find? fun t => t.kind = .endOfInput).isSome = true :=
        List.find?_isSome.2 ⟨t, List.mem_of_getLast? ht, by simpa using hk⟩
      obtain ⟨u, hu⟩ := Option.isSome_iff_exists.1 hsome
      rw [hu]
    · rw [if_neg hk, List.find?_append]
      cases tokens.find? fun t => t.kind = .endOfInput with
      | none => rfl
      | some u => rfl

end Cursor

end ShaderRepair
