import CommandShell.Proofs.OpenFiles
import Mathlib.Data.Option.Basic
import Mathlib.Logic.Relator

/-! Worlds that are alike up to the numbers in them. Files and pipes that two runs have in common may
have other numbers in the one than in the other; a matching says which number of the one world goes with
which of the other. Whatever is done to files and pipes that go together keeps worlds alike. -/
namespace CommandShell

/-- Which numbers of open files and pipes in one world go with which in another. -/
structure Matching where
  pairs : Nat → Nat → Prop
  unique : Relator.BiUnique pairs

inductive Source.Alike (T : Matching) : Source → Source → Prop where
  | disk (stream : Disk.Stream) : Alike T (.disk stream) (.disk stream)
  | pipe {n n' : Nat} (h : T.pairs n n') : Alike T (.pipe n) (.pipe n')

structure OpenFile.Alike (T : Matching) (f f' : OpenFile) : Prop where
  source : f.source.Alike T f'.source
  offset : f'.offset = f.offset
  append : f'.append = f.append

structure Streams.Alike (T : Matching) (streams streams' : Streams) : Prop where
  input : T.pairs streams.input streams'.input
  output : T.pairs streams.output streams'.output
  error : T.pairs streams.error streams'.error

namespace World

/-- Worlds with the same disk in which the files and pipes of a matching are alike: they lead to the same
places, as far as they have been read or written, and the same bytes wait in them. -/
structure LooksLike (T : Matching) (w w' : World) : Prop where
  disk : w'.disk = w.disk
  files : ∀ a b, T.pairs a b → Option.Rel (OpenFile.Alike T) (w.file? a) (w'.file? b)
  pipes : ∀ a b, T.pairs a b → w'.pipe? b = w.pipe? a

/-- Worlds that look alike and have recorded the same since two others. -/
structure Alike (base : World × World) (T : Matching) (w w' : World) : Prop
    extends LooksLike T w w' where
  events : ∃ new, w.events = base.1.events ++ new ∧ w'.events = base.2.events ++ new
  log : ∃ new, w.log = base.1.log ++ new ∧ w'.log = base.2.log ++ new

theorem LooksLike.alike {T : Matching} {w w' : World} (h : w.LooksLike T w') :
    w.Alike (w, w') T w' :=
  { h with events := ⟨[], by simp, by simp⟩, log := ⟨[], by simp, by simp⟩ }

namespace Alike
variable {base : World × World} {T : Matching} {w w' : World} {h h' : Nat}

/-! What changes open files, pipes and the disk. -/

theorem seek (hw : Alike base T w w') (hT : T.pairs h h') (offset : Nat) :
    Alike base T (w.seek h offset) (w'.seek h' offset) := by
  refine { hw with files := fun a b hab => ?_ }
  rw [file?_seek, file?_seek]
  have hf := hw.files a b hab
  have he := Relator.rel_eq T.unique hab hT
  generalize w.file? a = x, w'.file? b = y at hf
  cases hf with
  | none => exact .none
  | some hf =>
    refine .some ?_
    by_cases ha : a = h
    · simpa only [ha, if_true, he.mp ha] using ⟨hf.source, rfl, hf.append⟩
    · have hb : b ≠ h' := fun hb => ha (he.mpr hb)
      simpa only [ha, hb, if_false] using hf

theorem close (hw : Alike base T w w') (hT : T.pairs h h') :
    Alike base T (w.close h) (w'.close h') := by
  refine { hw with files := fun a b hab => ?_ }
  rw [file?_close, file?_close]
  have he := Relator.rel_eq T.unique hab hT
  by_cases ha : a = h
  · rw [if_pos ha, if_pos (he.mp ha)]
    exact .none
  · rw [if_neg ha, if_neg (fun hb => ha (he.mpr hb))]
    exact hw.files a b hab

theorem setPipe (hw : Alike base T w w') (hT : T.pairs h h') (p : Pipe) :
    Alike base T (w.setPipe h p) (w'.setPipe h' p) := by
  refine { hw with pipes := fun a b hab => ?_ }
  rw [pipe?_setPipe, pipe?_setPipe, hw.pipes a b hab]
  simp only [Relator.rel_eq T.unique hab hT]

theorem dropPipe (hw : Alike base T w w') (hT : T.pairs h h') :
    Alike base T (w.dropPipe h) (w'.dropPipe h') := by
  refine { hw with pipes := fun a b hab => ?_ }
  rw [pipe?_dropPipe, pipe?_dropPipe, hw.pipes a b hab]
  simp only [Relator.rel_eq T.unique hab hT]

theorem setDisk (hw : Alike base T w w') (disk : Disk) :
    Alike base T { w with disk } { w' with disk } :=
  { hw with disk := rfl }

theorem tell (hw : Alike base T w w') (e e' : Happening) : Alike base T (w.tell e) (w'.tell e') :=
  { hw with }

theorem begin (hw : Alike base T w w') : Alike base T w.begin w'.begin := { hw with }

/-! Reading and writing. -/

theorem file?_cases (hw : Alike base T w w') (hT : T.pairs h h') :
    (w.file? h = none ∧ w'.file? h' = none) ∨
      ∃ f f', w.file? h = some f ∧ w'.file? h' = some f' ∧ f.Alike T f' := by
  have hf := hw.files h h' hT
  generalize w.file? h = x, w'.file? h' = y at hf
  cases hf with
  | none => exact .inl ⟨rfl, rfl⟩
  | some hf => exact .inr ⟨_, _, rfl, rfl, hf⟩

theorem available (hw : Alike base T w w') (hT : T.pairs h h') :
    w'.available h' = w.available h := by
  obtain ⟨hn, hn'⟩ | ⟨⟨source, offset, _⟩, ⟨source', offset', _⟩, hf, hf', ha⟩ := hw.file?_cases hT
  · simp only [World.available, hn, hn']
  · obtain ⟨hs, rfl, -⟩ := ha
    cases hs with
    | disk stream => cases stream <;> simp only [World.available, hf, hf', hw.disk]
    | pipe hn => simp only [World.available, hf, hf', hw.pipes _ _ hn]

theorem consume (hw : Alike base T w w') (hT : T.pairs h h') (n : Nat) :
    Alike base T (w.consume h n) (w'.consume h' n) := by
  obtain ⟨hn, hn'⟩ | ⟨⟨source, offset, _⟩, ⟨source', offset', _⟩, hf, hf', ha⟩ := hw.file?_cases hT
  · simpa only [World.consume, hn, hn'] using hw
  · obtain ⟨hs, rfl, -⟩ := ha
    cases hs with
    | disk stream =>
      cases stream with
      | content => simpa only [World.consume, hf, hf'] using hw.seek hT _
      | _ => simpa only [World.consume, hf, hf'] using hw
    | @pipe m m' hm =>
      simp only [World.consume, hf, hf', hw.pipes _ _ hm]
      cases w.pipe? m with
      | none => exact hw
      | some p => exact hw.setPipe hm _

theorem write (hw : Alike base T w w') (hT : T.pairs h h') (s : Bytes) :
    (w'.write h' s).1 = (w.write h s).1 ∧ Alike base T (w.write h s).2 (w'.write h' s).2 := by
  by_cases hs : s.isEmpty
  · simpa only [World.write, hs, if_true, true_and] using hw
  obtain ⟨hn, hn'⟩ | ⟨⟨source, offset, append⟩, ⟨source', offset', append'⟩, hf, hf', ha⟩ :=
    hw.file?_cases hT
  · simpa only [World.write, hs, hn, hn', Bool.false_eq_true, if_false, true_and] using hw
  · obtain ⟨hsource, rfl, rfl⟩ := ha
    simp only [World.write, hs, hf, hf', Bool.false_eq_true, if_false]
    cases hsource with
    | disk stream =>
      cases stream with
      | content id =>
        simp only [hw.disk]
        exact ⟨trivial, (hw.setDisk _).seek hT _⟩
      | _ => exact ⟨rfl, hw⟩
    | @pipe n n' hn =>
      simp only [hw.pipes _ _ hn]
      cases w.pipe? n with
      | none => exact ⟨rfl, hw⟩
      | some p =>
        obtain ⟨waiting, _ | room⟩ := p
        · exact ⟨rfl, hw.setPipe hn _⟩
        · dsimp only
          by_cases hl : s.length ≤ room
          · simpa only [hl, if_true, true_and] using hw.setPipe hn _
          · simpa only [hl, if_false, true_and] using hw.setPipe hn _

theorem change (hw : Alike base T w w') (f : Disk → Except PathError Disk) :
    (Program.change w' f).1 = (Program.change w f).1 ∧
      Alike base T (Program.change w f).2 (Program.change w' f).2 := by
  simp only [Program.change, hw.disk]
  split
  · exact ⟨rfl, hw.setDisk _⟩
  · exact ⟨rfl, hw⟩

theorem record {recorder : Recorder} (hw : Alike base T w w') (hclock : w'.clock = w.clock)
    (hT : ∀ handle ∈ recorder.file?, T.pairs handle handle) (subject : Bytes) (e : Event) :
    Alike base T (recorder.record subject e w) (recorder.record subject e w') := by
  cases recorder with
  | silent => exact hw
  | broken =>
    obtain ⟨new, hl, hl'⟩ := hw.log
    refine { hw with log := ⟨new ++ ("recording " ++ subject ++ ": disk full" ++ "\n"), ?_, ?_⟩ }
    · simp [Recorder.record, note, hl]
    · simp [Recorder.record, note, hl']
  | memory =>
    obtain ⟨new, hn, hn'⟩ := hw.events
    refine { hw with events := ⟨new ++ [e], ?_, ?_⟩ }
    · simp [Recorder.record, hn]
    · simp [Recorder.record, hn']
  | file handle session =>
    simp only [Recorder.record, hclock]
    exact (hw.write (hT handle rfl) _).2

/-! Opening. The numbers that are given have to go together. -/

theorem request (hw : Alike base T w w') : Alike base T w.request.2 w'.request.2 := { hw with }

theorem add (hw : Alike base T w w') {f f' : OpenFile} (hf : f.Alike T f')
    (hT : T.pairs w.fresh w'.fresh) : Alike base T (w.add f).2 (w'.add f').2 := by
  refine { hw with files := fun a b hab => ?_ }
  have he := Relator.rel_eq T.unique hab hT
  rw [file?_add, file?_add]
  by_cases ha : a = w.fresh
  · rw [if_pos ha, if_pos (he.mp ha)]
    exact .some hf
  · rw [if_neg ha, if_neg (fun hb => ha (he.mpr hb))]
    exact hw.files a b hab

theorem withPipe (hw : Alike base T w w') (room : Option Nat) (hT : T.pairs w.fresh w'.fresh) :
    Alike base T (w.withPipe room) (w'.withPipe room) := by
  refine { hw with pipes := fun a b hab => ?_ }
  rw [pipe?_withPipe, pipe?_withPipe, hw.pipes a b hab]
  simp only [Relator.rel_eq T.unique hab hT]

/-- A path is opened in both worlds, or refused for the same reason. -/
theorem openPath (hw : Alike base T w w') (hr : w'.request.1 = w.request.1) (access : Disk.Access)
    (cwd : Place) (path : Bytes) :
    (∃ e u u', w.openPath access cwd path = (.error e, u) ∧
      w'.openPath access cwd path = (.error e, u') ∧ Alike base T u u') ∨
    ∃ u u', w.openPath access cwd path = (.ok w.fresh, u) ∧
      w'.openPath access cwd path = (.ok w'.fresh, u') ∧ u.fresh = w.fresh + 1 ∧
      (T.pairs w.fresh w'.fresh → Alike base T u u') := by
  simp only [World.openPath, hr]
  cases w.request.1 with
  | true => exact .inl ⟨_, _, _, rfl, rfl, hw.request⟩
  | false =>
    have hdisk : w'.request.2.disk = w.request.2.disk := hw.disk
    simp only [Bool.false_eq_true, if_false, hdisk]
    cases w.request.2.disk.openPath access cwd path with
    | error e => exact .inl ⟨_, _, _, rfl, rfl, hw.request⟩
    | ok opened =>
      refine .inr ⟨_, _, rfl, rfl, rfl, fun hT => ?_⟩
      exact (hw.request.setDisk opened.2).add ⟨.disk _, rfl, rfl⟩ hT

/-- A pipe is made in both worlds or in neither. -/
theorem openPipe (hw : Alike base T w w') (hr : w'.request.1 = w.request.1) (room : Option Nat) :
    (∃ u u', w.openPipe room = (none, u) ∧ w'.openPipe room = (none, u') ∧ Alike base T u u') ∨
    ∃ u u', w.openPipe room = (some ⟨w.fresh, w.fresh + 1, w.fresh + 2⟩, u) ∧
      w'.openPipe room = (some ⟨w'.fresh, w'.fresh + 1, w'.fresh + 2⟩, u') ∧ u.fresh = w.fresh + 3 ∧
      ((∀ n < 3, T.pairs (w.fresh + n) (w'.fresh + n)) → Alike base T u u') := by
  simp only [World.openPipe, hr]
  cases w.request.1 with
  | true => exact .inl ⟨_, _, rfl, rfl, hw.request⟩
  | false =>
    refine .inr ⟨_, _, rfl, rfl, rfl, fun hT => ?_⟩
    have hfile : OpenFile.Alike T { source := .pipe w.fresh } { source := .pipe w'.fresh } :=
      ⟨.pipe (hT 0 (by decide)), rfl, rfl⟩
    have hpipe := hw.request.withPipe room (hT 0 (by decide))
    exact (hpipe.add hfile (hT 1 (by decide))).add hfile (hT 2 (by decide))

end Alike

end World

end CommandShell
