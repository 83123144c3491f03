import ShaderRepair.Command.Disk

/-!
# Names on a disk

Following a name asks for files and folders, not for what is in the files. This file contains:
- `Disk.Alike`, the same files and folders, and what it leaves as it is;
- `Disk.toOption_read`, when a name can be read, and what is read;
- `Disk.Sound`, disks as a system has them, and `Disk.write_of_read`: there, what can be read can
  be written;
- what a file put in its place changes.
-/

namespace ShaderRepair

namespace Command

/-! ## Putting files in their place -/

namespace Disk

variable {p q : Path} {text : Text} {files : List (Path × Text)}

theorem lookup_put_self (p : Path) (text : Text) (files : List (Path × Text)) :
    (put p text files).lookup p = some text := by
  induction files with
  | nil => exact List.lookup_cons_self
  | cons f files ih =>
    rw [put]
    split
    · exact List.lookup_cons_self
    · next hf =>
      have hne : (p == f.1) = false := beq_eq_false_iff_ne.2 (Ne.symm hf)
      rw [List.lookup_cons, hne]
      exact ih

theorem lookup_put_of_ne (hq : q ≠ p) : (put p text files).lookup q = files.lookup q := by
  have hbeq : (q == p) = false := beq_eq_false_iff_ne.2 hq
  induction files with
  | nil => rw [put, List.lookup_cons, hbeq]
  | cons f files ih =>
    rw [put]
    split
    · next hf => rw [List.lookup_cons, List.lookup_cons, hf, hbeq]
    · rw [List.lookup_cons, List.lookup_cons, ih]

/-- A file that is there keeps its place. -/
theorem map_fst_put (h : p ∈ files.map Prod.fst) :
    (put p text files).map Prod.fst = files.map Prod.fst := by
  induction files with
  | nil => cases h
  | cons f files ih =>
    rw [put]
    by_cases hf : f.1 = p
    · rw [if_pos hf, List.map_cons, List.map_cons, hf]
    · have hmore : p ∈ files.map Prod.fst := (List.mem_cons.1 h).resolve_left (Ne.symm hf)
      rw [if_neg hf, List.map_cons, List.map_cons, ih hmore]

theorem content_isSome_iff {d : Disk} : (d.content p).isSome = true ↔ p ∈ d.files.map Prod.fst := by
  rw [content, List.lookup_isSome_iff, List.mem_map]
  exact exists_congr fun f => and_congr_right fun _ => beq_iff_eq.trans eq_comm

end Disk

/-! ## Disks with the same files -/

/-- Two disks with the same files and folders, whatever is in the files. -/
structure Disk.Alike (d d' : Disk) : Prop where
  files : d'.files.map Prod.fst = d.files.map Prod.fst
  folders : d'.folders = d.folders

namespace Disk

variable {d d' d'' : Disk} {name : Text} {here there : Path} {step : Text}

theorem Alike.refl (d : Disk) : Alike d d :=
  ⟨rfl, rfl⟩

theorem Alike.trans (h : Alike d d') (h' : Alike d' d'') : Alike d d'' :=
  ⟨h'.files.trans h.files, h'.folders.trans h.folders⟩

theorem Alike.content_isSome (h : Alike d d') (p : Path) :
    (d'.content p).isSome = (d.content p).isSome := by
  rw [Bool.eq_iff_iff, content_isSome_iff, content_isSome_iff, h.files]

theorem Alike.isFolder (h : Alike d d') (p : Path) : d'.isFolder p = d.isFolder p := by
  have hfiles : ∀ files : List (Path × Text),
      (files.any fun f => p.isPrefixOf f.1 && p ≠ f.1) =
        (files.map Prod.fst).any fun q => p.isPrefixOf q && p ≠ q :=
    fun files => by
      rw [List.any_map]
      rfl
  rw [Disk.isFolder, Disk.isFolder, hfiles, hfiles, h.files, h.folders]

theorem Alike.enter (h : Alike d d') : d'.enter = d.enter := by
  funext here step
  rw [Disk.enter, Disk.enter, h.isFolder, h.content_isSome]

theorem Alike.approach (h : Alike d d') (name : Text) : d'.approach name = d.approach name := by
  rw [Disk.approach, Disk.approach, h.enter]

/-! ## Following names -/

theorem enter_eq_ok (h : d.enter here step = .ok there) : there = here.next step := by
  simp only [enter] at h
  split at h
  · exact (Except.ok.inj h).symm
  · split at h
    · cases h
    · split at h <;> cases h

/-- Entering folders one after the other leads where the steps lead. -/
theorem foldlM_enter {steps : List Text} (h : steps.foldlM d.enter here = .ok there) :
    there = steps.foldl Path.next here := by
  induction steps generalizing here with
  | nil => exact (Except.ok.inj h).symm
  | cons step steps ih =>
    rw [List.foldlM_cons] at h
    cases hstep : d.enter here step with
    | error e =>
      rw [hstep] at h
      cases h
    | ok next =>
      rw [hstep] at h
      rw [ih h, enter_eq_ok hstep, List.foldl_cons]

/-- The last step of a name that can be followed leads where the name leads. -/
theorem next_of_approach (h : d.approach name = .ok here) :
    here.next (Path.lastStep name) = Path.ofText name := by
  rw [approach] at h
  split at h
  · cases h
  split at h
  · cases h
  rw [foldlM_enter h, Path.lastStep, Path.ofText]
  by_cases hsteps : Path.steps name = []
  · rw [hsteps]
    rfl
  · rw [List.getLast?_eq_some_getLast hsteps]
    calc ((Path.steps name).dropLast.foldl Path.next (Path.start name)).next
          ((Path.steps name).getLast hsteps)
        = ((Path.steps name).dropLast ++ [(Path.steps name).getLast hsteps]).foldl Path.next
            (Path.start name) := by rw [List.foldl_append]; rfl
      _ = (Path.steps name).foldl Path.next (Path.start name) := by
        rw [List.dropLast_concat_getLast]

/-- What can be read by a name is what is in the file that the name leads to. -/
theorem toOption_read (d : Disk) (name : Text) :
    (d.read name).toOption = (d.approach name).toOption.bind fun _ =>
      if Path.asksFolder name then none else d.content (Path.ofText name) := by
  rw [read]
  cases h : d.approach name with
  | error e => rfl
  | ok here =>
    simp only [bind, Except.bind]
    rw [next_of_approach h]
    cases d.content (Path.ofText name) with
    | none =>
      cases d.enter here (Path.lastStep name) <;> cases Path.asksFolder name <;> rfl
    | some text => cases Path.asksFolder name <;> rfl

theorem read_eq_ok {text : Text} (h : d.read name = .ok text) :
    (∃ here, d.approach name = .ok here) ∧ Path.asksFolder name = false ∧
      d.content (Path.ofText name) = some text := by
  have hread := d.toOption_read name
  rw [h] at hread
  cases happroach : d.approach name with
  | error e =>
    rw [happroach] at hread
    cases hread
  | ok here =>
    rw [happroach] at hread
    cases hasks : Path.asksFolder name with
    | true =>
      rw [hasks] at hread
      cases hread
    | false =>
      rw [hasks] at hread
      exact ⟨⟨here, rfl⟩, rfl, hread.symm⟩

/-- Names are read alike where the files they lead to are the same. -/
theorem Alike.toOption_read (h : Alike d d')
    (hsame : d'.content (Path.ofText name) = d.content (Path.ofText name)) :
    (d'.read name).toOption = (d.read name).toOption := by
  rw [Disk.toOption_read, Disk.toOption_read, h.approach, hsame]

/-! ## Sound disks -/

/-- No file is a folder as well, and no step that leads to a file is too long. -/
structure Sound (d : Disk) : Prop where
  file : ∀ p ∈ d.files.map Prod.fst, d.isFolder p = false
  step : ∀ p ∈ d.files.map Prod.fst, ∀ step ∈ p, step.length ≤ stepLimit

theorem Alike.sound (h : Alike d d') (hd : d.Sound) : d'.Sound := by
  refine ⟨fun p hp => ?_, fun p hp => ?_⟩
  · rw [h.isFolder]
    exact hd.file p (h.files ▸ hp)
  · exact hd.step p (h.files ▸ hp)

theorem Sound.length_lastStep_le (hd : d.Sound) (hfile : Path.ofText name ∈ d.files.map Prod.fst)
    (hnext : here.next (Path.lastStep name) = Path.ofText name) :
    (Path.lastStep name).length ≤ stepLimit := by
  rw [Path.next] at hnext
  split at hnext
  · next hdot =>
    rw [hdot]
    decide
  · split at hnext
    · next hdots =>
      rw [hdots]
      decide
    · refine hd.step _ hfile _ ?_
      rw [← hnext]
      exact List.mem_append_right here List.mem_cons_self

/-- On a sound disk, what can be read by a name can be written by it. -/
theorem Sound.write_of_read (hd : d.Sound) {source : Text} (h : d.read name = .ok source)
    (text : Text) :
    d.write name text = .ok { d with files := put (Path.ofText name) text d.files } := by
  obtain ⟨⟨here, happroach⟩, hasks, hcontent⟩ := read_eq_ok h
  have hnext := next_of_approach happroach
  have hfile : Path.ofText name ∈ d.files.map Prod.fst :=
    content_isSome_iff.1 (by rw [hcontent]; rfl)
  have hstep := Nat.not_lt.2 (hd.length_lastStep_le hfile hnext)
  rw [write, happroach]
  change (if Path.asksFolder name || d.isFolder (here.next (Path.lastStep name)) then _ else _) = _
  rw [hnext, hasks, hd.file _ hfile]
  simp [hstep]

/-- A file that is there is written over, and nothing else changes. -/
theorem alike_put (hfile : Path.ofText name ∈ d.files.map Prod.fst) (text : Text) :
    d.Alike { d with files := put (Path.ofText name) text d.files } :=
  ⟨map_fst_put hfile, rfl⟩

end Disk

end Command

end ShaderRepair
