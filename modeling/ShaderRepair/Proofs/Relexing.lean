import ShaderRepair.Proofs.Lexing
import ShaderRepair.Proofs.Splice

/-!
# Lexing a text with insertions

If words are put between tokens, and each of them may stand where it is put, then the tokens of the
new text are the old ones with those of the words between them. This file contains:
- `Lexer.Inserted`, what is asked of a word, and `Lexer.Between`, what is asked of its place;
- `Lexer.fits_filled` and `Lexer.continues_filled`, which turn this into what the patterns ask for;
- `Lexer.contents_filled`.
-/

namespace ShaderRepair

open Reach Text

namespace Lexer

/-! ## Words and places -/

/-- A word that has its own tokens whatever follows it, and that begins with no blank. -/
structure Inserted (w : Text) : Prop where
  whole : ∀ x, contents (w ++ x) = (contents w).dropLast ++ contents x
  solid : ∃ b x, w = b :: x ∧ isSolid b = true

/-- The words `ws` may stand between the tokens `t` and `t'`: the first one does not go on with `t`,
and one of the tokens is seen by the grammar. -/
structure Between (ws : List Text) (t t' : Token) : Prop where
  apart : ∀ c, ws.flatten.head? = some c → ∃ z, t.lexeme.getLast? = some z ∧ Apart z c
  seen : ws ≠ [] → t.isSignificant = true ∨ (t'.isSignificant = true ∧ t'.kind ≠ .endOfInput)

theorem contents_nil : contents [] = [(.endOfInput, [], Tags.none)] := rfl

/-- Words in front of a text have their tokens in front of those of the text. -/
theorem contents_flatten {ws : List Text} (h : ∀ w ∈ ws, Inserted w) (x : Text) :
    contents (ws.flatten ++ x) = (ws.flatMap fun w => (contents w).dropLast) ++ contents x := by
  induction ws with
  | nil => rfl
  | cons w ws ih =>
    have hws := ih fun w' hw' => h w' (List.mem_cons_of_mem w hw')
    rw [List.flatten_cons, List.append_assoc, (h w List.mem_cons_self).whole, hws,
      List.flatMap_cons, List.append_assoc]

/-! ## Texts filled up with words -/

section Filled

variable {ws : Int → List Text}

/-- What the words put in at an offset. -/
def gapOf (ws : Int → List Text) (n : Nat) : Text :=
  (ws n).flatten

theorem fits_append {a : Text} {z c : UInt8} (v x : Text) (ha : a.getLast? = some z)
    (hc : Apart z c) : Fits (a ++ v) (a ++ c :: x) := by
  intro u hu hpre
  by_cases hlen : u.length ≤ a.length
  · have hua := List.prefix_of_prefix_length_le hpre (List.prefix_append a (c :: x)) hlen
    exact hua.trans (List.prefix_append a v)
  · -- A longer one would have the two bytes that are apart.
    obtain ⟨w, rfl⟩ : ∃ w, a = w ++ [z] := List.getLast?_eq_some_iff.1 ha
    have hau : w ++ [z] ++ [c] <+: u := by
      refine List.prefix_of_prefix_length_le ⟨x, by simp⟩ hpre ?_
      simp only [List.length_append, List.length_singleton] at hlen ⊢
      omega
    obtain ⟨y, rfl⟩ := hau
    exact absurd hc (hu w z c y (by simp))

theorem filled_token {k : Nat} {a : Text} (v : Text) (ha : a ≠ [])
    (hin : ∀ n : Nat, k < n → n < k + a.length → gapOf ws n = []) :
    filled (gapOf ws) k (a ++ v) = gapOf ws k ++ (a ++ filled (gapOf ws) (k + a.length) v) := by
  obtain ⟨b, a, rfl⟩ := List.exists_cons_of_ne_nil ha
  have hmore : filled (gapOf ws) (k + 1) (a ++ v) =
      a ++ filled (gapOf ws) (k + 1 + a.length) v :=
    filled_append v fun n hn hlt => hin n (by omega) (by simp only [List.length_cons]; omega)
  rw [List.cons_append, filled, hmore, List.length_cons, Nat.add_right_comm, ← Nat.add_assoc]
  rfl

/-- What is asked of words and tokens, from the position `p` on. -/
structure Placed (ws : Int → List Text) (p : Position) (s : Text) : Prop where
  valid : ∀ t ∈ tokensAfter Pattern.list 0 p s, t.kind ≠ .error
  inside : ∀ t ∈ tokensAfter Pattern.list 0 p s, ∀ n : Int,
    t.start.offset < n → n < t.stop.offset → ws n = []
  between : ∀ l t t' l', tokensAfter Pattern.list 0 p s = l ++ t :: t' :: l' →
    Between (ws t'.start.offset) t t'

namespace Placed

variable {p : Position} {a v : Text} {k : Kind} {tags : Tags} (ha : a ≠ [])
  (h : first (a ++ v) = (k, a, tags))
include ha h

theorem tail (hs : Placed ws p (a ++ v)) : Placed ws (p.advance a) v := by
  obtain ⟨hvalid, hinside, hbetween⟩ := hs
  rw [tokensAfter_append ha h] at hvalid hinside hbetween
  refine ⟨?_, ?_, ?_⟩
  · exact fun t ht => hvalid t (List.mem_cons_of_mem _ ht)
  · exact fun t ht => hinside t (List.mem_cons_of_mem _ ht)
  · intro l t t' l' hl
    exact hbetween (_ :: l) t t' l' (by rw [hl]; rfl)

theorem head_valid (hs : Placed ws p (a ++ v)) : k ≠ .error := by
  have hvalid := hs.valid
  rw [tokensAfter_append ha h] at hvalid
  exact hvalid _ List.mem_cons_self

/-- No words stand inside the first token. -/
theorem head_inside (hs : Placed ws p (a ++ v)) {n : Nat} (hn : p.offset = n) (m : Nat)
    (hm : n < m) (hlt : m < n + a.length) : gapOf ws m = [] := by
  have hinside := hs.inside
  rw [tokensAfter_append ha h] at hinside
  have hnil : ws m = [] := by
    refine hinside _ List.mem_cons_self m ?_ ?_
    · simp only
      omega
    · change (m : Int) < p.offset + a.length
      omega
  rw [gapOf, hnil]
  rfl

/-- The next token, and that words may stand in front of it. -/
theorem next (hs : Placed ws p (a ++ v)) :
    ∃ t', Between (ws (p.advance a).offset) ⟨k, a, p, p.advance a, tags⟩ t' ∧
      ((v = [] ∧ t'.kind = .endOfInput) ∨
        ∃ a' v', v = a' ++ v' ∧ a' ≠ [] ∧ first v = (t'.kind, a', t'.tags) ∧
          t'.kind ≠ .error) := by
  have hbetween := hs.between
  rw [tokensAfter_append ha h] at hbetween
  by_cases hv : v = []
  · subst hv
    exact ⟨Token.endAt (p.advance a), hbetween [] _ _ [] rfl, .inl ⟨rfl, rfl⟩⟩
  · obtain ⟨k', a', tags', v', rfl, ha', h'⟩ := exists_first hv
    have hvalid := (hs.tail ha h).head_valid ha' h'
    refine ⟨⟨k', a', p.advance a, (p.advance a).advance a', tags'⟩, ?_, ?_⟩
    · exact hbetween [] _ _ _ (by rw [tokensAfter_append ha' h']; rfl)
    · exact .inr ⟨a', v', rfl, ha', h', hvalid⟩

end Placed

theorem advance_offset {p : Position} {n : Nat} (hn : p.offset = n) (a : Text) :
    (p.advance a).offset = ((n + a.length : Nat) : Int) := by
  change p.offset + a.length = _
  omega

/-- What is put in behind a token is apart from its last byte. -/
theorem apart_behind {p : Position} {n : Nat} {k : Kind} {a v : Text} {tags : Tags} (ha : a ≠ [])
    (h : first (a ++ v) = (k, a, tags)) (hn : p.offset = n) (hs : Placed ws p (a ++ v)) {y : UInt8}
    (hy : a.getLast? = some y) :
    ∀ c, (gapOf ws (n + a.length)).head? = some c → Apart y c := by
  intro c hc
  obtain ⟨t', hbetween, -⟩ := hs.next ha h
  rw [advance_offset hn] at hbetween
  obtain ⟨y', hy', hc'⟩ := hbetween.apart c hc
  have hyy : y = y' := Option.some.inj (hy.symm.trans hy')
  rw [hyy]
  exact hc'

/-- Behind a byte from which the words are apart, nothing joined reaches into the words. -/
theorem fits_filled (p : Position) (s : Text) :
    ∀ {n : Nat}, p.offset = n → Placed ws p s → ∀ {w : Text} {z : UInt8}, w.getLast? = some z →
      (∀ c, (gapOf ws n).head? = some c → Apart z c) →
      Fits (w ++ s) (w ++ filled (gapOf ws) n s) := by
  induction p, s using token_induction with
  | nil p =>
    intro n _ _ w z hw hapart
    rw [filled]
    cases hgap : gapOf ws n with
    | nil => exact fun u _ hu => hu
    | cons c x => exact fits_append [] x hw (hapart c (by rw [hgap]; rfl))
  | token p k a tags v ha h ih =>
    intro n hn hs w z hw hapart
    rw [filled_token v ha (hs.head_inside ha h hn)]
    cases hgap : gapOf ws n with
    | nil =>
      obtain ⟨y, hy⟩ : ∃ y, a.getLast? = some y :=
        ⟨a.getLast ha, List.getLast?_eq_some_getLast ha⟩
      have hwa : (w ++ a).getLast? = some y := by
        rw [List.getLast?_append, hy]
        rfl
      have hmore := ih (advance_offset hn a) (hs.tail ha h) hwa (apart_behind ha h hn hs hy)
      rw [List.append_assoc, List.append_assoc] at hmore
      exact hmore
    | cons c x => exact fits_append (a ++ v) _ hw (hapart c (by rw [hgap]; rfl))

/-- The two bytes of a line break belong to one token. -/
theorem crlf_in_first {a v x : Text} {k : Kind} {tags : Tags} (ha : a ≠ [])
    (h : first (a ++ v) = (k, a, tags)) (hk : k ≠ .error)
    (hx : a ++ v = carriageReturn :: lineFeed :: x) :
    ∃ y, a = carriageReturn :: lineFeed :: y := by
  by_cases hbreak : k = .lineBreak
  · rcases endsLine_of_first ha h hbreak with ⟨y, rfl⟩ | ⟨y, hy⟩
    · exact absurd (List.cons.inj hx).1 (by decide)
    · exact ⟨y, hy⟩
  by_cases hblank : k = .blank
  · have hzero := blanks_of_first ha h hblank
    rw [hx, blanks_crlf] at hzero
    exact absurd (List.length_eq_zero_iff.1 hzero.symm) ha
  · obtain ⟨b, y, rfl, hb⟩ := solid_of_first ha h hk hblank hbreak
    rw [(List.cons.inj hx).1] at hb
    cases hb

/-- A text that begins with a token goes on with that token, whatever comes behind it. -/
theorem continues_first {a v : Text} {k : Kind} {tags : Tags} (ha : a ≠ [])
    (h : first (a ++ v) = (k, a, tags)) (hk : k ≠ .error) (x : Text) :
    Continues (a ++ v) (a ++ x) := by
  refine ⟨fun hnil => absurd hnil (List.append_ne_nil_of_left_ne_nil ha v), ?_, ?_, ?_⟩
  · intro y hy
    obtain ⟨b, z, rfl⟩ := List.exists_cons_of_ne_nil ha
    rw [(List.cons.inj hy).1]
    exact ⟨_, rfl⟩
  · intro y hy
    obtain ⟨z, rfl⟩ := crlf_in_first ha h hk hy
    exact ⟨_, rfl⟩
  · intro b y hy hb
    obtain ⟨c, z, rfl⟩ := List.exists_cons_of_ne_nil ha
    rw [← (List.cons.inj hy).1] at hb
    exact ⟨c, _, rfl, hb⟩

/-- Behind a token that the grammar does not see, the text begins as before. -/
theorem continues_filled {p : Position} {n : Nat} (hn : p.offset = n) {k : Kind} {a v : Text}
    {tags : Tags} (ha : a ≠ []) (h : first (a ++ v) = (k, a, tags)) (hs : Placed ws p (a ++ v))
    (hw : ∀ m, ∀ w ∈ ws m, Inserted w) (hk : k.isIgnored = true) :
    Continues v (filled (gapOf ws) (n + a.length) v) := by
  obtain ⟨t', hbetween, hnext⟩ := hs.next ha h
  rw [advance_offset hn] at hbetween
  have hunseen : (⟨k, a, p, p.advance a, tags⟩ : Token).isSignificant = false := by
    simp [Token.isSignificant, Kind.isSignificant, hk]
  have hseen : ws ((n + a.length : Nat) : Int) ≠ [] →
      t'.isSignificant = true ∧ t'.kind ≠ .endOfInput := by
    intro hne
    rcases hbetween.seen hne with ht | ht
    · rw [hunseen] at ht
      cases ht
    · exact ht
  rcases hnext with ⟨rfl, hend⟩ | ⟨a', v', rfl, ha', h', hvalid⟩
  · have hnil : ws ((n + a.length : Nat) : Int) = [] := by
      by_contra hne
      exact (hseen hne).2 hend
    rw [filled, gapOf, hnil]
    exact .refl []
  · rw [filled_token v' ha' ((hs.tail ha h).head_inside ha' h' (advance_offset hn a))]
    cases hws : ws ((n + a.length : Nat) : Int) with
    | nil =>
      have hgap : gapOf ws (n + a.length) = [] := by rw [gapOf, hws]; rfl
      rw [hgap, List.nil_append]
      exact continues_first ha' h' hvalid _
    | cons w more =>
      -- Words stand here, so the next token is seen and begins with no blank.
      obtain ⟨hsig, -⟩ := hseen (by rw [hws]; exact List.cons_ne_nil _ _)
      have hblank : t'.kind ≠ .blank := by
        intro hkind
        simp [Token.isSignificant, hkind, Kind.isSignificant, Kind.isIgnored] at hsig
      have hbreak : t'.kind ≠ .lineBreak := by
        intro hkind
        simp [Token.isSignificant, hkind, Kind.isSignificant] at hsig
      obtain ⟨b, y, rfl, hb⟩ := solid_of_first ha' h' hvalid hblank hbreak
      obtain ⟨c, z, rfl, hc⟩ := (hw _ w (by rw [hws]; exact List.mem_cons_self)).solid
      have hgap : gapOf ws (n + a.length) = c :: (z ++ more.flatten) := by rw [gapOf, hws]; rfl
      rw [hgap]
      exact .of_solid hb hc _ _

/-- The next token ends a run of blanks. -/
theorem halts_behind_blank {p : Position} {a v : Text} {tags : Tags} (ha : a ≠ [])
    (h : first (a ++ v) = (.blank, a, tags)) (hs : Placed ws p (a ++ v)) : Halts v := by
  obtain ⟨t', -, hnext⟩ := hs.next ha h
  rcases hnext with ⟨rfl, -⟩ | ⟨a', v', rfl, ha', h', hvalid⟩
  · exact .inl (.inl rfl)
  · exact halts_of_first ha' h' hvalid (not_blank_after ha h rfl ha' h')

/-- The tokens of a text filled up with words are its own tokens with those of the words between
them. -/
theorem contents_filled (hw : ∀ m, ∀ w ∈ ws m, Inserted w) (p : Position) (s : Text) :
    ∀ {n : Nat}, p.offset = n → Placed ws p s →
      contents (filled (gapOf ws) n s) =
        (tokensAfter Pattern.list 0 p s).flatMap fun t =>
          ((ws t.start.offset).flatMap fun w => (contents w).dropLast) ++ [t.content] := by
  induction p, s using token_induction with
  | nil p =>
    intro n hn _
    have hflat := contents_flatten (hw n) []
    rw [List.append_nil] at hflat
    rw [filled, gapOf, hflat, ← hn]
    simp only [tokensAfter, List.flatMap_cons, List.flatMap_nil, List.append_nil]
    rfl
  | token p k a tags v ha h ih =>
    intro n hn hs
    obtain ⟨y, hy⟩ : ∃ y, a.getLast? = some y :=
      ⟨a.getLast ha, List.getLast?_eq_some_getLast ha⟩
    -- Nothing is put into the token, and what is put in behind it does not make it longer.
    have hfits : Fits (a ++ v) (a ++ filled (gapOf ws) (n + a.length) v) :=
      fits_filled (p.advance a) v (advance_offset hn a) (hs.tail ha h) hy
        (apart_behind ha h hn hs hy)
    have hfirst : first (a ++ filled (gapOf ws) (n + a.length) v) = (k, a, tags) := by
      refine first_congr ha h (hs.head_valid ha h) hfits ?_ ?_
      · exact continues_filled hn ha h hs hw
      · rintro rfl
        exact halts_behind_blank ha h hs
    rw [filled_token v ha (hs.head_inside ha h hn), gapOf, contents_flatten (hw n),
      contents_append ha hfirst, ih (advance_offset hn a) (hs.tail ha h), ← hn,
      tokensAfter_append ha h, List.flatMap_cons, List.append_assoc]
    rfl

end Filled

end Lexer

end ShaderRepair
