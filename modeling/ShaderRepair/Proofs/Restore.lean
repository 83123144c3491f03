import ShaderRepair.Proofs.RestoreLookahead
import ShaderRepair.Proofs.RestoreRun

/-!
# Restoring semicolons

A procedure that accepts the old symbols without a repair accepts the new ones as well. It misses
the semicolons that are gone, and what it produces is the same with moved marks. This file contains:
- `Omission.Matches` and `Omission.Restores`, the relation between the two runs of a procedure;
- one rule for each step of a procedure;
- `Omission.RestoresRules`, what is said of the rules.

A semicolon is gone only if it ends something that is produced. So a run on the old symbols has to
account for all semicolons that it passes: those that it produces an end for may be gone, the others
are not.
-/

namespace ShaderRepair

namespace Grammar

open Procedure

variable {α β γ δ : Type}

namespace Omission

section Rules

variable {o : Omission} {d : Nat} {x : Symbol} {shut : Bool} {held : List Nat}
  {ends : α → List Nat} {f : α → β} {s m t : State} {a : α}

/-! ## Two runs -/

/-- The ends that a run from `s` to `t` produces are held already or stand among the symbols that it
passes. And if all that is gone there is among these ends, then `p'` accepts the new symbols from
the same place on and arrives at the same place, with what `f` makes of the result. With `shut`,
what stands behind is not gone. -/
def Matches (o : Omission) (d : Nat) (shut : Bool) (held : List Nat) (ends : α → List Nat)
    (f : α → β) (p' : Procedure β) (s : State) (a : α) (t : State) : Prop :=
  (∀ i ∈ ends a, i < t.passed ∧ (i ∈ held ∨ s.passed ≤ i)) ∧
    (o.Covers (ends a) s t → (shut = true → o.gone t.passed = false) →
      ∀ ⦃s' : State⦄, o.Beside s s' →
        ∃ t', p'.exec (Rule.run d) s' = .accepted (f a) t' ∧ o.Beside t t')

/-- A second procedure may be replaced by one that does the same there. -/
theorem Matches.congr {p' q' : Procedure β} (h : o.Matches d shut held ends f q' s a t)
    (hsame : o.Covers (ends a) s t → (shut = true → o.gone t.passed = false) →
      ∀ ⦃s' : State⦄, o.Beside s s' → p'.exec (Rule.run d) s' = q'.exec (Rule.run d) s') :
    o.Matches d shut held ends f p' s a t := by
  refine ⟨h.1, fun hcovers hshut s' hs' => ?_⟩
  rw [hsame hcovers hshut hs']
  exact h.2 hcovers hshut hs'

/-- Whenever `p` accepts the old symbols from the symbol `x` on without a repair, `p'` matches the
run. -/
def Restores (o : Omission) (d : Nat) (x : Symbol) (shut : Bool) (held : List Nat)
    (ends : α → List Nat) (f : α → β) (p : Procedure α) (p' : Procedure β) : Prop :=
  ∀ ⦃s t : State⦄ ⦃a : α⦄, o.Runs d x held p s a t → o.Matches d shut held ends f p' s a t

namespace Restores

variable {p : Procedure α} {p' : Procedure β}

/-! ### Results and sequences -/

theorem done {b : β} (hends : ∀ i ∈ ends a, i ∈ held) (hf : f a = b) :
    o.Restores d x shut held ends f (.done a) (.done b) := by
  intro s t a' h
  have hheld := h.held
  cases h.accepted
  subst hf
  exact ⟨fun i hi => ⟨hheld i (hends i hi), .inl (hends i hi)⟩,
    fun _ _ s' hs' => ⟨s', rfl, hs'⟩⟩

theorem pure {b : β} (hends : ∀ i ∈ ends a, i ∈ held) (hf : f a = b) :
    o.Restores d x shut held ends f (Pure.pure a) (Pure.pure b) :=
  done hends hf

/-- A result that has no ends. -/
theorem result {b : β} (hf : f a = b) :
    o.Restores d x shut held noEnds f (.done a) (.done b) :=
  done (fun _ hi => absurd hi List.not_mem_nil) hf

theorem reject {index : Nat} {expected : List Expectation} :
    o.Restores d x shut held ends f (.reject index expected) p' := by
  intro s t a h
  cases h.accepted

theorem repair {missing : Missing} : o.Restores d x shut held ends f (.repair missing p) p' :=
  fun _ _ _ h => h.not_repair.elim

/-- One procedure after the other. The ends of the first one are held by the second one. -/
theorem seq {shut' : Bool} {ends' : γ → List Nat} {g : γ → δ} {p : Procedure γ} {p' : Procedure δ}
    {k : γ → Procedure α} {k' : δ → Procedure β} (h : o.Restores d x shut' [] ends' g p p')
    (hk : ∀ c y, o.Restores d y shut (held ++ ends' c) ends f (k c) (k' (g c)))
    (hsolid : shut' = true → ∀ c y, o.Solid d y shut (held ++ ends' c) ends (k c)) :
    o.Restores d x shut held ends f (p >>= k) (p' >>= k') := by
  intro s t a hrun
  obtain ⟨c, m, hc, ha⟩ := hrun.split
  have hsm := hc.le
  have hmt := ha.le
  obtain ⟨hends', hp⟩ := h (hc.hold fun i hi => nomatch hi)
  have hrun' : o.Runs d m.next (held ++ ends' c) (k c) m a t := by
    refine ha.hold fun i hi => ?_
    rcases List.mem_append.1 hi with hi | hi
    · exact ha.held i hi
    · exact (hends' i hi).1
  obtain ⟨hends, hk'⟩ := hk c m.next hrun'
  refine ⟨fun i hi => ?_, fun hcovers hshut s' hs' => ?_⟩
  · obtain ⟨hlt, hi⟩ := hends i hi
    refine ⟨hlt, ?_⟩
    rcases hi with hi | hi
    · rcases List.mem_append.1 hi with hi | hi
      · exact .inl hi
      · exact .inr ((hends' i hi).2.resolve_left List.not_mem_nil)
    · exact .inr (Nat.le_trans hsm hi)
  · have hcovers' : o.Covers (ends a) m t := fun i hgone hle hlt =>
      hcovers i hgone (Nat.le_trans hsm hle) hlt
    -- What is gone before `m` is an end of the first procedure: all others stand elsewhere.
    have hcovers₁ : o.Covers (ends' c) s m := by
      intro i hgone hle hlt
      rcases (hends i (hcovers i hgone hle (Nat.lt_of_lt_of_le hlt hmt))).2 with hi | hi
      · rcases List.mem_append.1 hi with hi | hi
        · exact absurd (hrun.held i hi) (Nat.not_lt.2 hle)
        · exact hi
      · exact absurd hlt (Nat.not_lt.2 hi)
    obtain ⟨m', hm', hbeside⟩ := hp hcovers₁
      (fun hs => hsolid hs c m.next hrun' hcovers' hshut) hs'
    obtain ⟨t', ht', hbeside'⟩ := hk' hcovers' hshut hbeside
    exact ⟨t', exec_bind_accepted.2 ⟨_, m', hm', ht'⟩, hbeside'⟩

/-- It does no harm to know what stands behind. -/
theorem close (h : o.Restores d x false held ends f p p') (shut : Bool) :
    o.Restores d x shut held ends f p p' := by
  intro s t a hrun
  obtain ⟨hends, hk⟩ := h hrun
  exact ⟨hends, fun hcovers _ => hk hcovers fun hno => absurd hno Bool.false_ne_true⟩

/-- The first procedure produces no ends. -/
theorem bind {g : γ → δ} {p : Procedure γ} {p' : Procedure δ} {k : γ → Procedure α}
    {k' : δ → Procedure β} (h : o.Restores d x false [] noEnds g p p')
    (hk : ∀ c y, o.Restores d y shut held ends f (k c) (k' (g c))) :
    o.Restores d x shut held ends f (p >>= k) (p' >>= k') := by
  refine seq h (fun c y => ?_) fun hno => absurd hno Bool.false_ne_true
  rw [noEnds, List.append_nil]
  exact hk c y

/-- The first procedure produces no ends, and what stands behind it is not gone. -/
theorem bind_shut {g : γ → δ} {p : Procedure γ} {p' : Procedure δ} {k : γ → Procedure α}
    {k' : δ → Procedure β} (h : o.Restores d x true [] noEnds g p p')
    (hk : ∀ c y, o.Restores d y shut held ends f (k c) (k' (g c)))
    (hsolid : ∀ c y, o.Solid d y shut held ends (k c)) :
    o.Restores d x shut held ends f (p >>= k) (p' >>= k') := by
  refine seq h (fun c y => ?_) fun _ c y => ?_
  · rw [noEnds, List.append_nil]
    exact hk c y
  · rw [noEnds, List.append_nil]
    exact hsolid c y

theorem map {g : γ → α} {g' : δ → β} {h : γ → δ} {p : Procedure γ} {p' : Procedure δ}
    (hp : o.Restores d x false [] noEnds h p p') (hf : ∀ c, f (g c) = g' (h c)) :
    o.Restores d x false [] noEnds f (g <$> p) (g' <$> p') := by
  rw [map_eq_pure_bind, map_eq_pure_bind]
  exact hp.bind fun c y => result (hf c)

theorem optional {g : γ → δ} {p : Procedure γ} {p' : Procedure δ}
    (hp : o.Restores d x false [] noEnds g p p') :
    o.Restores d x false [] noEnds (Option.map g) (some <$> p) (some <$> p') :=
  hp.map fun _ => rfl

/-! ### Looking ahead -/

/-- A step that goes on alike for whatever may stand behind a statement. -/
theorem next {k : Symbol → Procedure α} {k' : Symbol → Procedure β}
    (h : o.Restores d x shut held ends f (k x) (k' x))
    (hstops : x.kind.stops = true → ∀ y, y.kind.stops = true → k' y = k' x) :
    o.Restores d x shut held ends f (Procedure.next >>= k) (Procedure.next >>= k') := by
  intro s t a hrun
  have hnext := hrun.next
  subst hnext
  refine (h hrun.of_next).congr fun _ _ s' hs' => ?_
  suffices heq : k' s'.next = k' s.next from congrArg (fun q => q.exec (Rule.run d) s') heq
  -- Where a semicolon is gone, what comes next ends the statement as well.
  cases hgone : o.gone s.passed with
  | true =>
    have hx : s.next.kind.stops = true := by
      rw [kind_of_gone hgone hrun.rest]
      rfl
    exact hstops hx _ (Kind.stops_of_closes (hs'.next_of_gone hgone))
  | false =>
    rcases hs'.next hgone with hy | ⟨hcloses, hy⟩
    · rw [hy]
    · refine hstops (Kind.stops_of_closes hcloses) _ ?_
      rw [hy]
      exact Kind.stops_of_closes hcloses

/-- Both runs take the same branch. -/
theorem choose {c : Prop} [Decidable c] {q : Procedure α} {q' : Procedure β}
    (hyes : c → o.Restores d x shut held ends f p p')
    (hno : ¬c → o.Restores d x shut held ends f q q') :
    o.Restores d x shut held ends f (if c then p else q) (if c then p' else q') := by
  by_cases h : c
  · rw [if_pos h, if_pos h]
    exact hyes h
  · rw [if_neg h, if_neg h]
    exact hno h

/-- A condition that nothing meets that may stand behind a statement. -/
theorem next_if {c : Symbol → Prop} [DecidablePred c] {k q : Symbol → Procedure α}
    {k' q' : Symbol → Procedure β} (hc : ∀ y : Symbol, y.kind.stops = true → ¬c y)
    (hyes : c x → o.Restores d x shut held ends f (k x) (k' x))
    (hno : ¬c x → o.Restores d x shut held ends f (q x) (q' x))
    (hsame : x.kind.stops = true → ∀ y, y.kind.stops = true → q' y = q' x) :
    o.Restores d x shut held ends f (Procedure.next >>= fun s => if c s then k s else q s)
      (Procedure.next >>= fun s => if c s then k' s else q' s) := by
  refine next (choose hyes hno) fun hx y hy => ?_
  · rw [if_neg (hc x hx), if_neg (hc y hy)]
    exact hsame hx y hy

/-- A step in front of something that is not gone. A line break in front of it must not matter. -/
theorem next_run {k : Symbol → Procedure α} {k' : Symbol → Procedure β}
    (hsolid : o.Solid d x shut held ends (k x))
    (h : o.Restores d x shut held ends f (k x) (k' x))
    (hsame : x.kind.closes = true → ∀ ⦃s t a⦄, o.Runs d x held (k x) s a t →
      k' { x with broken := true } = k' x) :
    o.Restores d x shut held ends f (Procedure.next >>= k) (Procedure.next >>= k') := by
  intro s t a hrun
  have hnext := hrun.next
  subst hnext
  refine (h hrun.of_next).congr fun hcovers hshut s' hs' => ?_
  suffices heq : k' s'.next = k' s.next from congrArg (fun q => q.exec (Rule.run d) s') heq
  rcases hs'.next (hsolid hrun.of_next hcovers hshut) with hy | ⟨hcloses, hy⟩
  · rw [hy]
  · rw [hy]
    exact hsame hcloses hrun.of_next

theorem next_solid {k : Symbol → Procedure α} {k' : Symbol → Procedure β}
    (hsolid : o.Solid d x shut held ends (k x))
    (h : o.Restores d x shut held ends f (k x) (k' x))
    (hsame : x.kind.closes = true → k' { x with broken := true } = k' x) :
    o.Restores d x shut held ends f (Procedure.next >>= k) (Procedure.next >>= k') :=
  next_run hsolid h fun hx _ _ _ _ => hsame hx

/-- Whether a declaration starts decides. That none starts has to be shown for the new symbols. -/
theorem ahead {k : Bool → Procedure α} {k' : Bool → Procedure β}
    (h : ∀ b, o.Restores d x shut held ends f (k b) (k' b))
    (hno : ∀ ⦃s t a⦄, o.Runs d x held (k false) s a t → o.Covers (ends a) s t →
      Symbol.startsDeclaration s.rest = false → ∀ ⦃s'⦄, o.Beside s s' →
        Symbol.startsDeclaration s'.rest = false) :
    o.Restores d x shut held ends f (.ahead .done >>= k) (.ahead .done >>= k') := by
  intro s t a hrun
  have hrun' : o.Runs d x held (k (Symbol.startsDeclaration s.rest)) s a t := hrun.congr rfl
  refine (h _ hrun').congr fun hcovers _ s' hs' =>
    congrArg (fun b => (k' b).exec (Rule.run d) s') ?_
  cases hb : Symbol.startsDeclaration s.rest with
  | true => exact hs'.startsDeclaration hb
  | false =>
    rw [hb] at hrun'
    exact hno hrun' hcovers hb hs'

/-- The symbol after the next one decides by its kind. A semicolon there that is gone has to be
passed. -/
theorem second {k : Symbol → Procedure α} {k' : Symbol → Procedure β} (hx : x.kind.isTaken = true)
    (h : ∀ y, o.Restores d x shut held ends f (k y) (k' y))
    (hgap : ∀ y : Symbol, y.kind = .semicolon → ∀ ⦃s t a⦄, o.Runs d x held (k y) s a t →
      s.passed + 1 < t.passed ∧ ∀ i ∈ ends a, i ≠ s.passed + 1)
    (hsame : ∀ y z : Symbol, z.kind = y.kind → k' z = k' y) :
    o.Restores d x shut held ends f (Procedure.second >>= k) (Procedure.second >>= k') := by
  intro s t a hrun
  have hrun' : o.Runs d x held (k s.second) s a t := hrun.congr rfl
  refine (h s.second hrun').congr fun hcovers _ s' hs' => ?_
  suffices hkind : s'.second.kind = s.second.kind from
    congrArg (fun q => q.exec (Rule.run d) s') (hsame _ _ hkind)
  -- The symbol after the next one comes next once that has been passed.
  obtain ⟨hsemicolon, hpass⟩ := Kind.taken_ne hx
  have hkept : o.gone s.passed = false := kept_of_kind hrun.rest (hrun.next ▸ hsemicolon)
  have hold : s.next.kind ≠ .error ∧ s.next.kind ≠ .endOfInput := hrun.next ▸ hpass
  have hnew : s'.next.kind ≠ .error ∧ s'.next.kind ≠ .endOfInput :=
    (hs'.next_kind hkept).symm ▸ hold
  have hshift := hs'.shift hkept hold
  rw [← s.next_shift hold] at hrun' ⊢
  rw [← s'.next_shift hnew]
  refine hshift.next_kind (Bool.eq_false_iff.2 fun hgone => ?_)
  have hpassed : s.shift.passed = s.passed + 1 := (s.advances_shift hold).passed
  obtain ⟨hlt, hnot⟩ := hgap _ (kind_of_gone hgone hshift.rest) hrun'
  rw [hpassed] at hgone
  exact hnot _ (hcovers _ hgone (Nat.le_succ _) hlt) rfl

/-! ### Places -/

/-- The place of something that is not gone. -/
theorem position {k : Nat → Procedure α} {k' : Nat → Procedure β}
    (hsolid : ∀ n, o.Solid d x shut held ends (k n))
    (h : ∀ n, o.Restores d x shut held ends f (k n) (k' (o.moved n))) :
    o.Restores d x shut held ends f (Procedure.position >>= k) (Procedure.position >>= k') := by
  intro s t a hrun
  refine (h s.passed hrun.of_position).congr fun hcovers hshut s' hs' =>
    congrArg (fun n => (k' n).exec (Rule.run d) s') ?_
  have hkept := hsolid _ hrun.of_position hcovers hshut
  exact hs'.passed.trans (moved_of_kept hkept).symm

/-- A place that does not matter to the second run. -/
theorem somewhere {k : Nat → Procedure α} {k' : Nat → Procedure β}
    (h : ∀ n n', o.Restores d x shut held ends f (k n) (k' n')) :
    o.Restores d x shut held ends f (Procedure.position >>= k) (Procedure.position >>= k') := by
  intro s t a hrun
  have hrun' : o.Runs d x held (k s.passed) s a t := hrun.congr rfl
  refine ⟨(h s.passed 0 hrun').1, fun hcovers hshut s' hs' => ?_⟩
  exact (h s.passed s'.passed hrun').2 hcovers hshut hs'

/-- What has been passed last moves with the place behind it. -/
theorem extentFrom {first : Nat} {k : Extent Nat → Procedure α} {k' : Extent Nat → Procedure β}
    (h : ∀ X, o.Restores d x shut held ends f (k X) (k' (X.map o.moved))) :
    o.Restores d x shut held ends f (extentFrom first >>= k)
      (extentFrom (o.moved first) >>= k') := by
  intro s t a hrun
  have hrun' : o.Runs d x held (k ⟨first, s.passed - 1⟩) s a t := hrun.congr rfl
  refine (h _ hrun').congr fun _ _ s' hs' =>
    congrArg (fun n => (k' ⟨o.moved first, n⟩).exec (Rule.run d) s') ?_
  rw [hs'.passed, moved_pred]

/-! ### Expressions -/

theorem build {e e' : Tree} (h : o.Restores d x shut held ends f p p') :
    o.Restores d x shut held ends f (.build e p) (.build e' p') := by
  intro s t a hrun
  obtain ⟨hends, hk⟩ := h (s := s.build e)
    ⟨hrun.next, hrun.rest, hrun.held, hrun.accepted, hrun.repairs⟩
  refine ⟨hends, fun hcovers hshut s' hs' => ?_⟩
  have hs'' : o.Beside (s.build e) (s'.build e') := ⟨hs'.rest, hs'.rest', hs'.passed, hs'.repairs⟩
  exact hk hcovers hshut hs''

theorem widen {e e' : Tree} (h : o.Restores d x shut held ends f p p') :
    o.Restores d x shut held ends f (.widen e p) (.widen e' p') := by
  intro s t a hrun
  obtain ⟨hends, hk⟩ := h (s := s.widen e)
    ⟨hrun.next, hrun.rest, hrun.held, hrun.accepted, hrun.repairs⟩
  refine ⟨hends, fun hcovers hshut s' hs' => ?_⟩
  have hs'' : o.Beside (s.widen e) (s'.widen e') := ⟨hs'.rest, hs'.rest', hs'.passed, hs'.repairs⟩
  exact hk hcovers hshut hs''

/-- An expression is made of expressions with moved marks. -/
theorem make {first first' : Nat} {e e' : Extent Nat → Tree} {k : Tree → Procedure α}
    {k' : Tree → Procedure β} (hfirst : first' = o.moved first)
    (he : ∀ X, o.tree (e X) = e' (X.map o.moved))
    (h : ∀ c, o.Restores d x shut held ends f (k c) (k' (o.tree c))) :
    o.Restores d x shut held ends f (make first e >>= k) (make first' e' >>= k') := by
  subst hfirst
  change o.Restores d x shut held ends f
    (Procedure.extentFrom first >>= fun X => .build (e X) (k (e X)))
    (Procedure.extentFrom (o.moved first) >>= fun X => .build (e' X) (k' (e' X)))
  exact extentFrom fun X => build (he X ▸ h (e X))

/-- An expression that is made at the end. -/
theorem made {first first' : Nat} {e e' : Extent Nat → Tree} (hfirst : first' = o.moved first)
    (he : ∀ X, o.tree (e X) = e' (X.map o.moved)) :
    o.Restores d x shut held noEnds o.tree (Procedure.make first e)
      (Procedure.make first' e') := by
  have h : o.Restores d x shut held noEnds o.tree (Procedure.make first e >>= Pure.pure)
      (Procedure.make first' e' >>= Pure.pure) :=
    make hfirst he fun _ => result rfl
  rwa [bind_pure, bind_pure] at h

/-! ### Passing symbols -/

theorem shift (hx : x.kind ≠ .error ∧ x.kind ≠ .endOfInput)
    (hsolid : o.Solid d x shut held ends (.shift p))
    (h : ∀ y, o.Restores d y shut held ends f p p') :
    o.Restores d x shut held ends f (.shift p) (.shift p') := by
  intro s t a hrun
  have hnext := hrun.next
  have hs := s.advances_shift (hnext ▸ hx)
  have hpassed : s.shift.passed = s.passed + 1 := hs.passed
  have hrun' : o.Runs d s.shift.next held p s.shift a t := by
    refine ⟨rfl, hs.drop hrun.rest, fun i hi => ?_, hrun.accepted, ?_⟩
    · rw [hpassed]
      exact Nat.lt_succ_of_lt (hrun.held i hi)
    · rw [hrun.repairs, hs.repairs]
      rfl
  obtain ⟨hends, hk⟩ := h _ hrun'
  refine ⟨fun i hi => ⟨(hends i hi).1, (hends i hi).2.imp_right fun hle => ?_⟩,
    fun hcovers hshut s' hs' => ?_⟩
  · rw [hpassed] at hle
    exact Nat.le_of_succ_le hle
  -- Both runs pass the symbol, so it must not be gone.
  · have hkept := hsolid hrun hcovers hshut
    have hcovers' : o.Covers (ends a) s.shift t := fun i hgone hle hlt =>
      hcovers i hgone (Nat.le_trans s.passed_le_shift hle) hlt
    exact hk hcovers' hshut (hs'.shift hkept (hnext ▸ hx))

theorem take_solid (hx : x.kind ≠ .error ∧ x.kind ≠ .endOfInput)
    {k : Name Nat → Procedure α} {k' : Name Nat → Procedure β}
    (hsolid : ∀ n, o.Solid d x shut held ends (.shift (k ⟨x.lexeme, n⟩)))
    (h : ∀ n y, o.Restores d y shut held ends f (k ⟨x.lexeme, n⟩) (k' ⟨x.lexeme, o.moved n⟩)) :
    o.Restores d x shut held ends f (take >>= k) (take >>= k') := by
  change o.Restores d x shut held ends f
    (Procedure.next >>= fun s => Procedure.position >>= fun n => .shift (k ⟨s.lexeme, n⟩))
    (Procedure.next >>= fun s => Procedure.position >>= fun n => .shift (k' ⟨s.lexeme, n⟩))
  refine next_solid (.position hsolid) ?_ fun _ => rfl
  exact position hsolid fun n => shift hx (hsolid n) (h n)

/-- Both runs pass a symbol that is no semicolon. -/
theorem take (hx : x.kind.isTaken = true) {k : Name Nat → Procedure α} {k' : Name Nat → Procedure β}
    (h : ∀ n y, o.Restores d y shut held ends f (k ⟨x.lexeme, n⟩) (k' ⟨x.lexeme, o.moved n⟩)) :
    o.Restores d x shut held ends f (take >>= k) (take >>= k') := by
  obtain ⟨hsemicolon, hpass⟩ := Kind.taken_ne hx
  exact take_solid hpass (fun n => .of_kind hsemicolon) h

/-- Whether the next symbol is acceptable decides. -/
theorem accept {e : Expectation} (htaken : e.wants.isTaken = true) (hstops : e.wants.stops = false)
    {k : Bool → Procedure α} {k' : Bool → Procedure β}
    (hyes : e.accepts x = true → ∀ y, o.Restores d y shut held ends f (k true) (k' true))
    (hno : o.Restores d x shut held ends f (k false) (k' false)) :
    o.Restores d x shut held ends f (accept e >>= k) (accept e >>= k') := by
  -- Nothing that may stand behind a statement is accepted, whether or not a semicolon is gone here.
  have hnone : ∀ y : Symbol, y.kind.stops = true → e.accepts y = false := by
    intro y hy
    refine Bool.eq_false_iff.2 fun hacc => ?_
    rw [Expectation.kind_of_accepts hacc, hstops] at hy
    cases hy
  change o.Restores d x shut held ends f
    (Procedure.next >>= fun s =>
      (if e.accepts s then .shift (.done true) else .done false) >>= k)
    (Procedure.next >>= fun s =>
      (if e.accepts s then .shift (.done true) else .done false) >>= k')
  refine next ?_ fun hx y hy => by rw [hnone x hx, hnone y hy]
  cases hacc : e.accepts x with
  | true =>
    rw [← Expectation.kind_of_accepts hacc] at htaken
    obtain ⟨hsemicolon, hpass⟩ := Kind.taken_ne htaken
    exact shift hpass (.of_kind hsemicolon) (hyes hacc)
  | false => exact hno

/-- The next symbol is acceptable to both runs or to none, since it is not gone. -/
theorem accept_solid {e : Expectation} (hpass : e.wants ≠ .error ∧ e.wants ≠ .endOfInput)
    {k : Bool → Procedure α} {k' : Bool → Procedure β}
    (hsolid : o.Solid d x shut held ends (Procedure.accept e >>= k))
    (hyes : e.accepts x = true → ∀ y, o.Restores d y shut held ends f (k true) (k' true))
    (hno : e.accepts x = false → o.Restores d x shut held ends f (k false) (k' false)) :
    o.Restores d x shut held ends f (Procedure.accept e >>= k) (Procedure.accept e >>= k') := by
  have hsolid' : o.Solid d x shut held ends
      ((if e.accepts x then .shift (.done true) else .done false : Procedure Bool) >>= k) := by
    intro s t a hrun
    exact hsolid (Runs.to_next (k := fun y =>
      (if e.accepts y then .shift (.done true) else .done false) >>= k) hrun)
  have hbroken : ∀ y : Symbol, e.accepts { y with broken := true } = e.accepts y := by
    intro y
    cases e <;> rfl
  change o.Restores d x shut held ends f
    (Procedure.next >>= fun s =>
      (if e.accepts s then .shift (.done true) else .done false) >>= k)
    (Procedure.next >>= fun s =>
      (if e.accepts s then .shift (.done true) else .done false) >>= k')
  refine next_solid hsolid' ?_ fun _ => by rw [hbroken]
  cases hacc : e.accepts x with
  | true =>
    rw [hacc] at hsolid'
    exact shift (Expectation.kind_of_accepts hacc ▸ hpass) hsolid' (hyes hacc)
  | false => exact hno hacc

/-- Both runs pass the same expected symbol. -/
theorem expect {expected : List Expectation}
    (he : (expected.all fun e => e.wants.isTaken) = true)
    {k : Name Nat → Procedure α} {k' : Name Nat → Procedure β}
    (h : (expected.any fun e => e.accepts x) = true →
      ∀ n y, o.Restores d y shut held ends f (k ⟨x.lexeme, n⟩) (k' ⟨x.lexeme, o.moved n⟩)) :
    o.Restores d x shut held ends f (expect expected >>= k) (expect expected >>= k') := by
  by_cases hx : (expected.any fun e => e.accepts x) = true
  · obtain ⟨e, hmem, hyes⟩ := List.any_eq_true.1 hx
    have htaken := List.all_eq_true.1 he e hmem
    rw [← Expectation.kind_of_accepts hyes] at htaken
    have hbody : o.Restores d x shut held ends f
        (Procedure.next >>= fun s => (if expected.any fun e => e.accepts s then Procedure.take
          else .here fun n => .reject n expected) >>= k)
        (Procedure.next >>= fun s => (if expected.any fun e => e.accepts s then Procedure.take
          else .here fun n => .reject n expected) >>= k') := by
      refine next_solid (.of_kind (Kind.taken_ne htaken).1) ?_ fun _ => ?_
      · rw [if_pos hx]
        exact take htaken (h hx)
      · have hsame : ∀ e : Expectation, e.accepts { x with broken := true } = e.accepts x := by
          intro e
          cases e <;> rfl
        simp only [hsame]
    exact hbody
  -- Where nothing fits, the run is rejected.
  · intro s t a hrun
    obtain ⟨w, m, hw, -⟩ := exec_bind_accepted.1 hrun.accepted
    exact absurd (hrun.next ▸ (exec_expect_accepted.1 hw).1) hx

/-! ### Punctuation -/

/-- A mark that may be missing is there in both runs. -/
theorem orMissing_solid {kind : Kind} {missing : Missing}
    (hk : kind ≠ .error ∧ kind ≠ .endOfInput)
    (hsolid : x.kind = kind → o.Solid d x shut held ends (.shift p))
    (h : ∀ y, o.Restores d y shut held ends f p p') :
    o.Restores d x shut held ends f (orMissing kind missing >>= fun _ => p)
      (orMissing kind missing >>= fun _ => p') := by
  intro s t a hrun
  obtain ⟨hx, hp⟩ := hrun.kind_of_orMissing
  have hrun' : o.Runs d x held (.shift p) s a t :=
    ⟨hrun.next, hrun.rest, hrun.held, hp, hrun.repairs⟩
  obtain ⟨hends, hk'⟩ := shift (hx ▸ hk) (hsolid hx) h hrun'
  refine ⟨hends, fun hcovers hshut s' hs' => ?_⟩
  have hkept := hsolid hx hrun' hcovers hshut
  have hkind : s'.next.kind = kind := by rw [hs'.next_kind hkept, hrun.next, hx]
  rw [exec_orMissing_bind, if_pos hkind]
  exact hk' hcovers hshut hs'

theorem orMissing {kind : Kind} {missing : Missing} (hk : kind.isTaken = true)
    (h : ∀ y, o.Restores d y shut held ends f p p') :
    o.Restores d x shut held ends f (orMissing kind missing >>= fun _ => p)
      (orMissing kind missing >>= fun _ => p') := by
  obtain ⟨hsemicolon, hpass⟩ := Kind.taken_ne hk
  exact orMissing_solid hpass (fun hx => .of_kind (hx ▸ hsemicolon)) h

/-- A semicolon between clauses is no end and so not gone. -/
theorem clauseEnd (h : ∀ y, o.Restores d y shut [] noEnds f p p') :
    o.Restores d x shut [] noEnds f (clauseEnd >>= fun _ => p) (clauseEnd >>= fun _ => p') := by
  refine orMissing_solid (Kind.passes_of_semicolon rfl) (fun hx => ?_) h
  exact .shift (Kind.passes_of_semicolon hx) fun _ _ _ _ => rfl

/-- The end of a statement. It is either a row of semicolons, none of which is gone, or a single one
that is gone and missed. -/
theorem statementEnd {first first' : Nat} {node : Extent Nat → α} {node' : Extent Nat → β}
    (hfirst : first' = o.moved first)
    (hends : ∀ X, ∀ i ∈ ends (node X), i ∈ held ∨ i = X.last)
    (hf : ∀ X, f (node X) = node' (X.map o.moved)) :
    o.Restores d x shut held ends f
      (Procedure.statementEnd >>= fun _ =>
        Procedure.extentFrom first >>= fun X => Pure.pure (node X))
      (Procedure.statementEnd >>= fun _ =>
        Procedure.extentFrom first' >>= fun X => Pure.pure (node' X)) := by
  intro s t a hrun
  obtain ⟨u, m, hend, hnode⟩ := hrun.split
  obtain ⟨hx, rfl⟩ := hend.skip_of_statementEnd
  rw [← hrun.next] at hx
  have hmt := hnode.accepted
  cases hmt
  have hlt := s.lt_skipSemicolons hx
  refine ⟨fun i hi => ?_, fun hcovers _ s' hs' => ?_⟩
  · rcases hends _ i hi with hi | rfl
    · exact ⟨Nat.lt_trans (hrun.held i hi) hlt, .inl hi⟩
    · exact ⟨Nat.sub_one_lt_of_lt hlt, .inr (Nat.le_sub_one_of_lt hlt)⟩
  -- At most the last one of the semicolons in a row is gone.
  have hlast : ∀ i, o.gone i = true → s.passed ≤ i → i < s.skipSemicolons.passed →
      i = s.skipSemicolons.passed - 1 := by
    intro i hgone hle hi
    rcases hends _ i (hcovers i hgone hle hi) with hheld | hi
    · exact absurd (hrun.held i hheld) (Nat.not_lt.2 hle)
    · exact hi
  have hafter : ∃ t', Procedure.statementEnd.exec (Rule.run d) s' = .accepted () t' ∧
      o.Beside s.skipSemicolons t' := by
    cases hgone : o.gone (s.skipSemicolons.passed - 1) with
    | true =>
      have hsingle : s.skipSemicolons.passed = s.passed + 1 := hrun.single hgone hlt
      rw [hsingle, Nat.add_sub_cancel] at hgone
      exact hs'.statementEnd_of_gone hgone hsingle hnode.rest
    | false =>
      refine hs'.statementEnd_of_kept hx fun i hle hi => ?_
      refine Bool.eq_false_iff.2 fun hyes => ?_
      rw [hlast i hyes hle hi, hgone] at hyes
      cases hyes
  obtain ⟨t', ht', hbeside⟩ := hafter
  refine ⟨t', exec_bind_accepted.2 ⟨(), t', ht', ?_⟩, hbeside⟩
  have hX : (⟨first', t'.passed - 1⟩ : Extent Nat) =
      Extent.map o.moved ⟨first, s.skipSemicolons.passed - 1⟩ := by
    rw [Extent.map, hfirst, moved_pred, hbeside.passed]
  rw [hf, ← hX]
  rfl

/-- A rule is as good as its body. -/
theorem call {r r' : Rule} {ends : r.Result → List Nat} {f : r.Result → r'.Result}
    (h : o.Restores d x shut held ends f r.body r'.body) :
    o.Restores (d + 1) x shut held ends f (run r) (run r') := by
  intro s t a hrun
  obtain ⟨hends, hk⟩ := h hrun.body
  refine ⟨hends, fun hcovers hshut s' hs' => ?_⟩
  rw [exec_run_succ]
  exact hk hcovers hshut hs'

end Restores

end Rules

/-! ## What is said of the rules -/

/-- The rule with moved marks in what has been read already. -/
def rule (o : Omission) : Rule → Rule
  | .qualifiers found => .qualifiers (found.map o.moved o.tree)
  | .vars type name => .vars (type.map o.moved o.tree) (name.map o.moved)
  | .binaryRest level left => .binaryRest level (o.tree left)
  | .suffixes object => .suffixes (o.tree object)
  | r => r

/-- The result with moved marks. -/
def image (o : Omission) : (r : Rule) → r.Result → (o.rule r).Result
  | .item => Node.map o.moved o.tree
  | .items _ => Node.mapAll o.moved o.tree
  | .statement => Node.map o.moved o.tree
  | .cases => Case.mapAll o.moved o.tree
  | .qualifiers _ => Qualifiers.map o.moved o.tree
  | .layoutParams => List.map (LayoutParam.map o.moved o.tree)
  | .dims => List.map (Option.map o.tree)
  | .declarators => List.map (Declarator.map o.moved o.tree)
  | .vars _ _ => List.map (Declarator.map o.moved o.tree)
  | .members => List.map (Member.map o.moved o.tree)
  | .params => List.map (Param.map o.moved o.tree)
  | .names => List.map (Name.map o.moved)
  | .expression => o.tree
  | .sequence => Expr.mapAll (Extent.map o.moved)
  | .assignment => o.tree
  | .conditional => o.tree
  | .binary _ => o.tree
  | .binaryRest _ _ => o.tree
  | .unary => o.tree
  | .suffixes _ => o.tree
  | .arguments => Expr.mapAll (Extent.map o.moved)
  | .primary => o.tree
  | .initializer => o.tree
  | .elements => Expr.mapAll (Extent.map o.moved)

/-- The ends of what a rule produces. -/
def endsOf : (r : Rule) → r.Result → List Nat
  | .item => Node.terminators
  | .items _ => Node.terminatorsAll
  | .statement => Node.terminators
  | .cases => Case.terminatorsAll
  | .members => fun ls => ls.map fun l => l.extent.last
  | _ => noEnds

/-- Behind these rules stands no semicolon that is gone. -/
def isShut : Rule → Bool
  | .item | .statement | .qualifiers _ | .params => true
  | _ => false

/-- Every rule restores the semicolons that are gone, run with calls nested `d` deep. -/
def RestoresRules (o : Omission) (d : Nat) : Prop :=
  ∀ r x, o.Restores d x (isShut r) [] (endsOf r) (o.image r) (run r) (run (o.rule r))

end Omission

end Grammar

end ShaderRepair
