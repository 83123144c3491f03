import ShaderRepair.Grammar.Symbol

/-!
# Significant tokens

The symbols of a list of tokens are numbered, and each of them is that of a significant token. This
file contains:
- `Stream.pairs`, the significant tokens before the end of input, with line breaks before them;
- what a stream looks up for a number.
-/

namespace ShaderRepair

namespace Stream

/-- The significant tokens before the end of input, each with whether a line break precedes it. -/
def pairs (tokens : List Token) : List (Token × Bool) :=
  significant false (tokens.takeWhile fun t => t.kind ≠ .endOfInput)

/-- Line breaks aside, nothing else is left out. -/
theorem map_fst_significant (broken : Bool) (tokens : List Token) :
    (significant broken tokens).map Prod.fst = tokens.filter Token.isSignificant := by
  induction tokens generalizing broken with
  | nil => rfl
  | cons t more ih =>
    rw [significant]
    split
    · next hign =>
      have hnot : t.isSignificant = false := by
        have hign' : t.kind.isIgnored = true := hign
        simp [Token.isSignificant, Kind.isSignificant, hign']
      rw [ih, List.filter_cons_of_neg (by simp [hnot])]
    · next hign =>
      have hign' : t.kind.isIgnored = false := Bool.eq_false_iff.2 hign
      split
      · next hbreak =>
        have hnot : t.isSignificant = false := by
          simp [Token.isSignificant, Kind.isSignificant, hbreak]
        rw [ih, List.filter_cons_of_neg (by simp [hnot])]
      · next hbreak =>
        have hsig : t.isSignificant = true := by
          simp [Token.isSignificant, Kind.isSignificant, hign', hbreak]
        rw [List.map_cons, ih, List.filter_cons_of_pos hsig]

theorem symbols_ofTokens (tokens : List Token) :
    (ofTokens tokens).symbols = (pairs tokens).map fun x => Symbol.ofToken x.2 x.1 :=
  rfl

theorem length_symbols_le (tokens : List Token) :
    (ofTokens tokens).symbols.length ≤ tokens.length := by
  have hfst : (ofTokens tokens).symbols.length = ((pairs tokens).map Prod.fst).length := by
    rw [List.length_map]
    exact List.length_map _
  rw [hfst, pairs, map_fst_significant]
  exact Nat.le_trans (List.length_filter_le _ _) (List.takeWhile_prefix _).length_le

section Tokens

variable {tokens : List Token} {i : Nat} {x : Token × Bool}

theorem token_of_pair (h : (pairs tokens)[i]? = some x) : (ofTokens tokens).token i = x.1 := by
  rw [token, ofTokens, Array.getD_eq_getD_getElem?, List.getElem?_toArray, List.getElem?_map]
  change ((pairs tokens)[i]?.map Prod.fst).getD _ = x.1
  rw [h]
  rfl

theorem token_of_none (h : (pairs tokens)[i]? = none) :
    (ofTokens tokens).token i = finishOf tokens := by
  rw [token, ofTokens, Array.getD_eq_getD_getElem?, List.getElem?_toArray, List.getElem?_map]
  change ((pairs tokens)[i]?.map Prod.fst).getD _ = _
  rw [h]
  rfl

theorem kind_finishOf (tokens : List Token) : (finishOf tokens).kind = .endOfInput := by
  rw [finishOf]
  split
  · next t ht => simpa using List.find?_some ht
  · split <;> rfl

/-- A token of another kind than the end of input is there. -/
theorem exists_pair (h : ((ofTokens tokens).token i).kind ≠ .endOfInput) :
    ∃ b, (pairs tokens)[i]? = some ((ofTokens tokens).token i, b) := by
  cases hx : (pairs tokens)[i]? with
  | none =>
    rw [token_of_none hx] at h
    exact absurd (kind_finishOf tokens) h
  | some x =>
    rw [token_of_pair hx]
    exact ⟨x.2, rfl⟩

end Tokens

end Stream

end ShaderRepair
