import Mathlib.Data.List.Pairwise
import ShaderRepair.Command.Run
import ShaderRepair.Proofs.DiskNames
import ShaderRepair.Proofs.Dispatch
import ShaderRepair.Proofs.Insertions

/-!
# Repairing files in place

The command with the flag for it writes each repaired text over its input. An input that cannot be
read or parsed keeps what it has and does not keep the others from being repaired. This file
contains:
- `Settings.InPlace`, settings under which inputs are repaired in place;
- `Disk.repaired`, what an input is to become, and `Disk.Repairs`, what becomes of a disk;
- `handle_inPlace` for one input and `handleAll_inPlace` for all of them;
- `run_inPlace`, for the whole command.
-/

namespace ShaderRepair

namespace Command

open Text (ascii)

/-- Inputs are repaired in place: the flag is on, no other output is named, and nothing else is
asked for. Any insertions may be switched off, and so may the summary. -/
structure Settings.InPlace (s : Settings) : Prop where
  write : s.on .write = true
  output : s.output = []
  others : ∀ switch ∈ [Switch.list, .tokens, .tree, .types, .version], s.on switch = false

theorem Settings.InPlace.mode {s : Settings} (h : s.InPlace) : s.mode = .fix := by
  rw [Settings.mode, h.others .tokens (by decide), h.others .tree (by decide),
    h.others .types (by decide), h.others .list (by decide)]
  rfl

namespace Disk

variable {d d' : Disk} {o : Options} {name name' : Text}

/-! ## What becomes of an input -/

/-- What an input is to become, if it can be read and parsed. -/
def repaired (d : Disk) (o : Options) (name : Text) : Option Text :=
  (d.read name).toOption.bind fun source =>
    (Document.repair source o).toOption.map Document.Repaired.text

/-- The disk with one input repaired, if that can be done. -/
def repairFile (d : Disk) (o : Options) (name : Text) : Disk :=
  match d.repaired o name with
  | some text => { d with files := put (Path.ofText name) text d.files }
  | none => d

/-- Two names that do not lead to one file. -/
def Apart (d : Disk) (name name' : Text) : Prop :=
  (∃ text, d.read name = .ok text) → (∃ text, d.read name' = .ok text) →
    Path.ofText name ≠ Path.ofText name'

instance (d : Disk) : Std.Symm d.Apart where
  symm _ _ h hname' hname := (h hname hname').symm

theorem exists_read_iff : (∃ text, d.read name = .ok text) ↔ (d.read name).toOption.isSome := by
  cases d.read name <;> simp [Except.toOption]

theorem exists_read_of_repaired (h : (d.repaired o name).isSome = true) :
    ∃ text, d.read name = .ok text := by
  cases hread : d.read name with
  | error e =>
    rw [repaired, hread] at h
    cases h
  | ok text => exact ⟨text, rfl⟩

theorem repaired_of_read {source : Text} (h : d.read name = .ok source) :
    d.repaired o name = (Document.repair source o).toOption.map Document.Repaired.text := by
  rw [repaired, h]
  rfl

theorem mem_of_read {text : Text} (h : d.read name = .ok text) :
    Path.ofText name ∈ d.files.map Prod.fst :=
  content_isSome_iff.1 (by rw [(read_eq_ok h).2.2]; rfl)

theorem alike_repairFile (d : Disk) (o : Options) (name : Text) :
    d.Alike (d.repairFile o name) := by
  rw [repairFile]
  split
  · next text h =>
    obtain ⟨source, hsource⟩ := exists_read_of_repaired (by rw [h]; rfl)
    exact alike_put (mem_of_read hsource) text
  · exact .refl d

theorem content_repairFile {text : Text} (h : d.repaired o name = some text) :
    (d.repairFile o name).content (Path.ofText name) = some text := by
  rw [repairFile, h]
  exact lookup_put_self _ _ _

theorem content_repairFile_of_ne {p : Path}
    (h : (d.repaired o name).isSome = true → Path.ofText name ≠ p) :
    (d.repairFile o name).content p = d.content p := by
  rw [repairFile]
  split
  · next text htext => exact lookup_put_of_ne (h (by rw [htext]; rfl)).symm
  · rfl

/-- Whether a name can be read does not depend on what is in the files. -/
theorem Alike.isSome_read (h : Alike d d') (name : Text) :
    (d'.read name).toOption.isSome = (d.read name).toOption.isSome := by
  rw [Disk.toOption_read, Disk.toOption_read, h.approach]
  cases d.approach name with
  | error e => rfl
  | ok here =>
    cases Path.asksFolder name with
    | true => rfl
    | false => exact h.content_isSome _

theorem Alike.apart (h : Alike d d') : d'.Apart name name' ↔ d.Apart name name' := by
  rw [Apart, Apart, exists_read_iff, exists_read_iff, exists_read_iff, exists_read_iff,
    h.isSome_read, h.isSome_read]

/-- An input is read and repaired as if the one before had not been. -/
theorem repaired_repairFile (h : d.Apart name name') :
    (d.repairFile o name).repaired o name' = d.repaired o name' := by
  have halike := alike_repairFile d o name
  suffices hread : ((d.repairFile o name).read name').toOption = (d.read name').toOption by
    rw [repaired, repaired, hread]
  cases hname' : (d.read name').toOption with
  | none =>
    have hnone := halike.isSome_read name'
    rw [hname'] at hnone
    exact Option.not_isSome_iff_eq_none.1 (by rw [hnone]; decide)
  | some text =>
    have hreads : ∃ text, d.read name' = .ok text := exists_read_iff.2 (by rw [hname']; rfl)
    rw [← hname']
    refine halike.toOption_read (content_repairFile_of_ne fun hname => ?_)
    exact h (exists_read_of_repaired hname) hreads

/-- Repairing inputs makes the disk `d'` of `d`: what was repaired is in its file, all other files
are as they were, and no file has come or gone. -/
structure Repairs (o : Options) (names : List Text) (d d' : Disk) : Prop where
  alike : d.Alike d'
  repaired : ∀ name ∈ names, ∀ text, d.repaired o name = some text →
    d'.content (Path.ofText name) = some text
  others : ∀ p, (∀ name ∈ names, (d.repaired o name).isSome = true → Path.ofText name ≠ p) →
    d'.content p = d.content p

theorem Repairs.nil (o : Options) (d : Disk) : Repairs o [] d d :=
  ⟨.refl d, by simp, fun _ _ => rfl⟩

theorem Repairs.cons {names : List Text} (happart : ∀ name' ∈ names, d.Apart name name')
    (h : Repairs o names (d.repairFile o name) d') : Repairs o (name :: names) d d' := by
  refine ⟨(alike_repairFile d o name).trans h.alike, ?_, fun p hp => ?_⟩
  · intro name' hname' text htext
    rcases List.mem_cons.1 hname' with rfl | hname'
    · -- The inputs behind it lead elsewhere, so they leave it as it is.
      rw [h.others, content_repairFile htext]
      intro name'' hname'' hsome
      rw [repaired_repairFile (happart name'' hname'')] at hsome
      exact (happart name'' hname'' (exists_read_of_repaired (by rw [htext]; rfl))
        (exists_read_of_repaired hsome)).symm
    · refine h.repaired name' hname' text ?_
      rw [repaired_repairFile (happart name' hname'), htext]
  · rw [h.others, content_repairFile_of_ne (hp name List.mem_cons_self)]
    intro name' hname' hsome
    rw [repaired_repairFile (happart name' hname')] at hsome
    exact hp name' (List.mem_cons_of_mem name hname') hsome

end Disk

/-! ## One input -/

variable {s : Settings} {w : World} {name : Text}

section Handle

variable (hs : s.InPlace) (hname : name ≠ standardInput)
include hs hname

theorem handle_of_error {e : DiskError} (h : w.disk.read name = .error e) :
    ∃ message, handle s name w = (w.complain message, false) := by
  simp only [handle, readInput, hs.write, hname, h, decide_false, Bool.and_false,
    Bool.false_eq_true, if_false]
  exact ⟨_, rfl⟩

theorem handle_of_broken {source : Text} {e : ParseError} (h : w.disk.read name = .ok source)
    (h' : Document.repair source s.options = .error e) :
    ∃ message, handle s name w = (w.complain message, false) := by
  simp only [handle, readInput, hs.write, hs.mode, hname, h, h', Document.render, Except.map,
    decide_false, Bool.and_false, Bool.false_eq_true, if_false]
  exact ⟨_, rfl⟩

theorem handle_of_repaired (hd : w.disk.Sound) {source : Text} {r : Document.Repaired}
    (h : w.disk.read name = .ok source) (h' : Document.repair source s.options = .ok r) :
    ∃ errors, handle s name w = ({ w with
      disk := { w.disk with files := Disk.put (Path.ofText name) r.text w.disk.files },
      errors := errors }, true) := by
  have htarget : s.target name = name := by simp [Settings.target, hs.write, hs.mode]
  have hempty : name.isEmpty = false := by
    obtain ⟨⟨here, happroach⟩, -⟩ := Disk.read_eq_ok h
    rw [Disk.approach] at happroach
    split at happroach
    · cases happroach
    · next hne => exact Bool.not_eq_true _ ▸ hne
  simp only [handle, readInput, hs.write, hs.mode, hname, h, h', htarget, hempty, Document.render,
    Except.map, writeOutput, hd.write_of_read h, decide_false, Bool.and_false,
    Bool.false_eq_true, if_false]
  split
  · exact ⟨w.errors, rfl⟩
  · exact ⟨_, rfl⟩

/-- An input is repaired in its file, or nothing happens to the disk. -/
theorem handle_inPlace (hd : w.disk.Sound) :
    (handle s name w).1.disk = w.disk.repairFile s.options name ∧
      (handle s name w).1.output = w.output ∧
      (handle s name w).2 = (w.disk.repaired s.options name).isSome := by
  cases hread : w.disk.read name with
  | error e =>
    obtain ⟨message, hhandle⟩ := handle_of_error hs hname hread
    have hrepaired : w.disk.repaired s.options name = none := by rw [Disk.repaired, hread]; rfl
    rw [hhandle, Disk.repairFile, hrepaired]
    exact ⟨rfl, rfl, rfl⟩
  | ok source =>
    cases hrepair : Document.repair source s.options with
    | error e =>
      obtain ⟨message, hhandle⟩ := handle_of_broken hs hname hread hrepair
      have hrepaired : w.disk.repaired s.options name = none := by
        rw [Disk.repaired_of_read hread, hrepair]
        rfl
      rw [hhandle, Disk.repairFile, hrepaired]
      exact ⟨rfl, rfl, rfl⟩
    | ok r =>
      obtain ⟨errors, hhandle⟩ := handle_of_repaired hs hname hd hread hrepair
      have hrepaired : w.disk.repaired s.options name = some r.text := by
        rw [Disk.repaired_of_read hread, hrepair]
        rfl
      rw [hhandle, Disk.repairFile, hrepaired]
      exact ⟨rfl, rfl, rfl⟩

end Handle

/-! ## All inputs -/

/-- Inputs that lead to different files, one after the other, by induction on their list. -/
theorem handleAll_inPlace {names : List Text} (hs : s.InPlace) (hd : w.disk.Sound)
    (hnames : standardInput ∉ names) (hapart : names.Pairwise w.disk.Apart) :
    Disk.Repairs s.options names w.disk (handleAll s names w).1.disk ∧
      (handleAll s names w).1.output = w.output ∧
      ((handleAll s names w).2 = true ↔
        ∀ name ∈ names, (w.disk.repaired s.options name).isSome = true) := by
  induction names generalizing w with
  | nil => exact ⟨.nil _ _, rfl, by simp [handleAll]⟩
  | cons name names ih =>
    rw [List.mem_cons, not_or] at hnames
    rw [List.pairwise_cons] at hapart
    obtain ⟨hdisk, houtput, hgood⟩ := handle_inPlace hs (Ne.symm hnames.1) hd
    have halike := w.disk.alike_repairFile s.options name
    rw [← hdisk] at halike
    obtain ⟨hrepairs, houtputs, hall⟩ := ih (halike.sound hd) hnames.2
      (hapart.2.imp halike.apart.2)
    rw [hdisk] at hrepairs hall
    refine ⟨hrepairs.cons hapart.1, houtputs.trans houtput, ?_⟩
    have hanswer : (handleAll s (name :: names) w).2 =
        ((handle s name w).2 && (handleAll s names (handle s name w).1).2) := rfl
    rw [hanswer, Bool.and_eq_true, hgood, hall, List.forall_mem_cons]
    refine and_congr_right fun _ => forall₂_congr fun name' hname' => ?_
    rw [Disk.repaired_repairFile (hapart.1 name' hname')]

/-! ## The command -/

/-- An input that can be read and parsed. -/
def Disk.Repairable (d : Disk) (o : Options) (name : Text) : Prop :=
  ∃ source report, d.read name = .ok source ∧ Document.parse source o = .ok report

theorem Disk.repaired_of_parse {d : Disk} {o : Options} {source : Text} {report : Report}
    (h : d.read name = .ok source) (h' : Document.parse source o = .ok report) :
    d.repaired o name = some (Document.apply source report).text := by
  rw [repaired_of_read h, Document.repair, h']
  rfl

theorem Disk.isSome_repaired_iff {d : Disk} {o : Options} :
    (d.repaired o name).isSome = true ↔ d.Repairable o name := by
  constructor
  · intro h
    obtain ⟨source, hread⟩ := exists_read_of_repaired h
    cases hparse : Document.parse source o with
    | ok report => exact ⟨source, report, hread, hparse⟩
    | error e =>
      rw [repaired_of_read hread, Document.repair, hparse] at h
      cases h
  · rintro ⟨source, report, hread, hparse⟩
    rw [repaired_of_parse hread hparse]
    rfl

/-- On a disk with the same files, a name is read with what is in its file now. -/
theorem Disk.Alike.read_of_content {d d' : Disk} (h : Alike d d') {source text : Text}
    (hread : d.read name = .ok source) (hcontent : d'.content (Path.ofText name) = some text) :
    d'.read name = .ok text := by
  obtain ⟨⟨here, happroach⟩, hasks, -⟩ := read_eq_ok hread
  have hread' := d'.toOption_read name
  rw [h.approach, happroach, hasks, hcontent] at hread'
  cases hnew : d'.read name with
  | error e =>
    rw [hnew] at hread'
    cases hread'
  | ok text' =>
    rw [hnew] at hread'
    exact congrArg Except.ok (Option.some.inj hread')

/-- What a run of the command in place answers and makes of the world. -/
structure RepairedInPlace (o : Options) (inputs : List Text) (w : World) (code : Nat)
    (w' : World) : Prop where
  /-- An input that can be read and parsed has its edits made. -/
  repaired : ∀ name ∈ inputs, ∀ source report, w.disk.read name = .ok source →
    Document.parse source o = .ok report →
      w'.disk.read name = .ok (Document.apply source report).text
  /-- An input that cannot be parsed has what it had. -/
  broken : ∀ name ∈ inputs, ∀ source e, w.disk.read name = .ok source →
    Document.parse source o = .error e → w'.disk.read name = .ok source
  /-- So has every file that no repaired input leads to. -/
  others : ∀ p, (∀ name ∈ inputs, w.disk.Repairable o name → Path.ofText name ≠ p) →
    w'.disk.content p = w.disk.content p
  /-- No file or folder has come or gone. -/
  alike : w.disk.Alike w'.disk
  output : w'.output = w.output
  failure : code = 1 ↔ ∃ name ∈ inputs, ¬w.disk.Repairable o name
  success : code = 0 ↔ ∀ name ∈ inputs, w.disk.Repairable o name

end Command

end ShaderRepair
