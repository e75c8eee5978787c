import CommandShell.Proofs.Pipeline

/-! Programs that read all of their input before they write. Such a program, run as a simple command,
is a function of its input, and can be a stage of a pipeline. -/
namespace CommandShell

/-- Reads the input to its end, writes what it makes of it, and ends. -/
def Program.transform (make : Bytes → Bytes) (code : Bytes → UInt8) : Program :=
  .read List.length fun x => .print (make x) (.exit (code x))

namespace StreamFunction

/-- What such a program does. If it may not write everything, it is killed. -/
def ofTransform (make : Bytes → Bytes) (code : Bytes → UInt8) : StreamFunction where
  effect
    | none, x => ⟨x.length, make x, (code x).toNat⟩
    | some n, x =>
      ⟨x.length, (make x).take n, if (make x).length ≤ n then (code x).toNat else Status.unknown⟩
  taken_le room x := by cases room <;> exact Nat.le_refl _
  written_take _ _ := rfl
  enough h := by
    dsimp only at h ⊢
    rw [List.take_of_length_le h, if_pos h]
  causal {room x y k} _ hk hx _ := by
    have htaken : x.length < k := by cases room <;> exact hk
    omega

end StreamFunction

/-- If a text is too long, then only a part of it gets into the pipe. -/
theorem Pipe.put_take {p : Pipe} {n : Nat} (h : p.room = some n) (s : Bytes) :
    p.put (s.take n) = p.put s := by
  obtain ⟨waiting, room⟩ := p
  obtain rfl : room = some n := h
  by_cases hle : s.length ≤ n
  · rw [List.take_of_length_le hle]
  · have htake : (s.take n).length = n := List.length_take_of_le (Nat.le_of_not_le hle)
    simp [put, hle, htake]

namespace World
variable {w w' : World} {k n : Nat}

/-- A writer goes on if there is room for the whole text. -/
theorem write_fst (w : World) (k : Nat) (s : Bytes) :
    (w.write k s).1 = (w.room k).all fun n => decide (s.length ≤ n) := by
  unfold write room
  by_cases hs : s = []
  · subst hs
    simp
  · simp only [List.isEmpty_iff, hs, if_false]
    rcases w.file? k with _ | ⟨(id | _ | _) | m, offset, append⟩
    · rfl
    · rfl
    · rfl
    · rfl
    · cases hp : w.pipe? m with
      | none => simp [hp]
      | some p =>
        obtain ⟨waiting, _ | room⟩ := p
        · simp [hp]
        · by_cases hle : s.length ≤ room <;> simp [hp, hle]

theorem view_write_take (h : w.room k = some n) (s : Bytes) :
    (w.write k (s.take n)).2.view k = (w.write k s).2.view k := by
  rw [view_write, view_write, view]
  unfold room at h
  generalize w.file? k = file at h ⊢
  rcases file with _ | ⟨(id | _ | _) | m, offset, append⟩
  · cases h
  · cases h
  · cases h
  · cases h
  · cases hp : w.pipe? m with
    | none => simp [View.write, behind, hp]
    | some p =>
      have hroom : p.room = some n := by simpa [hp] using h
      simp [View.write, behind, hp, Pipe.put_take hroom]

/-- Worlds in which all open files and pipes and the disk are the same. -/
structure SameStreams (w w' : World) : Prop where
  disk : w'.disk = w.disk
  files : w'.files = w.files
  pipes : w'.pipes = w.pipes
  fresh : w'.fresh = w.fresh
  outages : w'.outages = w.outages

namespace SameStreams

theorem trans {a b c : World} (h : a.SameStreams b) (h' : b.SameStreams c) : a.SameStreams c where
  disk := h'.disk.trans h.disk
  files := h'.files.trans h.files
  pipes := h'.pipes.trans h.pipes
  fresh := h'.fresh.trans h.fresh
  outages := h'.outages.trans h.outages

variable (h : w.SameStreams w')
include h

theorem numbered (hw : w.Numbered) : w'.Numbered := by
  obtain ⟨hfiles, hsources, hpipes⟩ := hw
  unfold table at hfiles hsources
  unfold pipeNumbers at hpipes
  rw [← h.fresh, ← h.files] at hfiles hsources
  rw [← h.fresh, ← h.pipes] at hpipes
  exact ⟨hfiles, hsources, hpipes⟩

theorem granted (hw : w.Granted) : w'.Granted := by
  unfold Granted
  rw [h.outages]
  exact hw

theorem file? (k : Nat) : w'.file? k = w.file? k := by
  rw [World.file?, h.files, World.file?]

theorem source? (k : Nat) : w'.source? k = w.source? k := by
  rw [World.source?, h.file?, World.source?]

theorem view (k : Nat) : w'.view k = w.view k := by
  refine view_congr (h.file? k) fun source _ => ?_
  rcases source with (id | _ | _) | n
  · rw [behind, behind, h.disk]
  · rfl
  · rfl
  · rw [behind, behind, pipe?, h.pipes, pipe?]

end SameStreams

theorem sameStreams_record {recorder : Recorder} (h : recorder.file? = none) (subject : Bytes)
    (e : Event) (w : World) : w.SameStreams (recorder.record subject e w) := by
  cases recorder with
  | silent | broken | memory => exact ⟨rfl, rfl, rfl, rfl, rfl⟩
  | file handle session => cases h

end World

namespace Setting
variable {S : Setting} {f : StreamFunction} {w w' w'' : World} {i o : Nat} {status : Status}

theorem Reached.of_sameStreams (h : S.Reached w) (hs : w.SameStreams w') : S.Reached w' where
  numbered := hs.numbered h.numbered
  granted := hs.granted h.granted
  fresh := Nat.lt_of_lt_of_eq h.fresh hs.fresh.symm
  target := (hs.source? _).trans h.target
  fits := by
    rw [hs.disk]
    exact h.fits

theorem Wired.of_sameStreams (h : S.Wired w i o) (hs : w.SameStreams w') : S.Wired w' i o where
  input := h.input.later (Nat.le_of_eq hs.fresh.symm) (hs.source? i)
  output := h.output.later (Nat.le_of_eq hs.fresh.symm) (hs.source? o)
  apart := h.apart.of_source? (hs.source? i) (hs.source? o)

/-- What the shell keeps apart from the streams makes no difference to a stage. -/
theorem Filtered.of_sameStreams (h : S.Filtered f w' i o status w'') {v v' : World}
    (hv : v.SameStreams w') (hv' : w''.SameStreams v') : S.Filtered f v i o status v' := by
  obtain ⟨hstatus, hinput, houtput, hothers, hfits⟩ := h
  rw [World.room_of_view (hv.view o), World.available_of_view (hv.view i)] at hstatus hinput houtput
  constructor
  · exact hstatus
  · rw [hv'.view, hinput, World.view_consume, World.view_consume, hv.view]
  · rw [hv'.view, houtput, World.view_write, World.view_write, hv.view]
  · intro k hk hki hko
    have hlater : v.fresh ≤ w'.fresh := Nat.le_of_eq hv.fresh.symm
    rw [hv'.view, hothers k, hv.view]
    · exact hk.imp (·.later hlater (hv.source? k)) (·.later hlater (hv.source? k))
    · exact hki.of_source? (hv.source? k) (hv.source? i)
    · exact hko.of_source? (hv.source? k) (hv.source? o)
  · rw [hv'.disk]
    exact hfits

/-- The disk fits the stages whatever is written to the output of the pipeline. -/
def Lasting (S : Setting) : Prop :=
  ∀ (d : Disk) (id : Nat) (data : Bytes), S.target = some (.disk (.content id)) → S.fits d →
    S.fits (d.setContent id data)

theorem Lasting.write (h : S.Lasting) (hw : S.Reached w) (ho : S.Output w o) (s : Bytes) :
    S.fits (w.write o s).2.disk := by
  rcases w.disk_write o s with hsame | ⟨id, data, hsource, hset⟩
  · rw [hsame]
    exact hw.fits
  · rw [hset]
    refine h _ id data ?_ hw.fits
    rcases ho.2 with rfl | ⟨n, hpipe⟩
    · exact hw.target.symm.trans hsource
    · cases hpipe.symm.trans hsource

theorem Reached.consume (h : S.Reached w) (k n : Nat) : S.Reached (w.consume k n) where
  numbered := h.numbered.quiet (w.quiet_consume k n)
  granted := h.granted.consume k n
  fresh := Nat.lt_of_lt_of_eq h.fresh (w.quiet_consume k n).fresh.symm
  target := (w.source?_consume k n _).trans h.target
  fits := by
    rw [w.disk_consume]
    exact h.fits

end Setting

namespace Program
variable {S : Setting} {w : World} {i o : Nat} {make : Bytes → Bytes} {code : Bytes → UInt8}

theorem run_transform (streams : Streams) (dir : Place) :
    (transform make code).run streams dir w =
      let x := w.available streams.input
      let after := (w.consume streams.input x.length).write streams.output (make x)
      (if after.1 then .exited (code x) else .killed, after.2) := by
  simp only [transform, run, World.read, Nat.min_self, List.take_length]
  split <;> simp_all

/-- A program that reads to the end is a function of its input. -/
theorem filtered_transform (hlast : S.Lasting) (hw : S.Reached w) (hio : S.Wired w i o) (dir : Place) :
    let run := (transform make code).run (S.wire i o) dir w
    S.Filtered (.ofTransform make code) w i o run.1.status run.2 := by
  rw [run_transform]
  have hi : (S.wire i o).input = i := rfl
  have ho : (S.wire i o).output = o := rfl
  simp only [hi, ho]
  generalize hx : w.available i = x
  have hread : (w.consume i x.length).view o = w.view o :=
    World.view_consume_of_apart _ hio.apart.symm
  have hapart {j k : Nat} (h : w.Apart j k) : (w.consume i x.length).Apart j k :=
    h.of_source? (w.source?_consume i _ j) (w.source?_consume i _ k)
  constructor
  · rw [World.write_fst, World.room_of_view hread, hx]
    cases w.room o with
    | none => rfl
    | some n => by_cases hle : (make x).length ≤ n <;> simp [hle, StreamFunction.ofTransform, Outcome.status]
  · rw [World.view_write_of_apart (hapart hio.apart), hx]
    cases w.room o <;> rfl
  · rw [World.view_write, hread, ← World.view_write, hx]
    cases hroom : w.room o with
    | none => rfl
    | some n => exact (World.view_write_take hroom _).symm
  · intro k _ hki hko
    rw [World.view_write_of_apart (hapart hko), World.view_consume_of_apart _ hki]
  · refine hlast.write (hw.consume i x.length) (hio.output.later ?_ (w.source?_consume i _ o)) _
    exact Nat.le_of_eq (w.quiet_consume i _).fresh.symm

end Program

/-- A disk as it was, but for what was written to a file that is already open. -/
inductive Disk.Since (base : Disk) (target : Option Source) : Disk → Prop where
  | same : base.Since target base
  | written {id : Nat} (data : Bytes) (h : target = some (.disk (.content id))) :
      base.Since target (base.setContent id data)

namespace Disk.Since
variable {base d : Disk} {target : Option Source}

theorem setContent (h : base.Since target d) {id : Nat} (data : Bytes)
    (ht : target = some (.disk (.content id))) : base.Since target (d.setContent id data) := by
  cases h with
  | same => exact .written data ht
  | written old hold =>
    cases hold.symm.trans ht
    have he : (base.setContent id old).setContent id data = base.setContent id data := by
      simp [Disk.setContent]
    rw [he]
    exact .written data ht

theorem lookup (h : base.Since target d) (env : Environment) (dir name : Bytes) :
    Search.lookup d env dir name = Search.lookup base env dir name := by
  cases h with
  | same => rfl
  | written data _ => exact Search.lookup_setContent data base env dir name

theorem prepare (h : base.Since target d)
    (hn : ∀ id, target = some (.disk (.content id)) → base.Nameless id) (dir path : Bytes)
    (argv env : List Bytes) :
    Launch.prepare d dir path argv env = Launch.prepare base dir path argv env := by
  cases h with
  | same => rfl
  | written data ht => exact Launch.prepare_setContent data (hn _ ht) dir path argv env

end Disk.Since

namespace Executor
variable {ex : Executor} {base : Disk} {name : Bytes} {args : List Bytes} {make : Bytes → Bytes}
  {code : Bytes → UInt8} {S : Setting}

/-- A command that is not a builtin and that is found and started. -/
structure Starts (disk : Disk) (here : Surroundings) (name : Bytes) (args : List Bytes)
    (invocation : Invocation) : Prop where
  external : Builtin.ofName? name = none
  found : ∃ path, Search.lookup disk here.env here.dir name = .ok path ∧
    Launch.prepare disk here.dir path (name :: args) here.env.listing = .ok invocation

/-- A simple command whose program reads to the end is a function of its input. -/
theorem filters_plain (hrec : ex.recorder.file? = none) (hfits : S.fits = base.Since S.target)
    (hnameless : ∀ id, S.target = some (.disk (.content id)) → base.Nameless id)
    {invocation : Invocation} (hstart : Starts base S.here name args invocation)
    (hroom : ex.shortage invocation = none) (hp : ex.programs invocation = .transform make code)
    (l r : Tree) :
    S.Filters ex (.ofTransform make code) (.node .plain (name :: args) .none l r) := by
  intro w i o hw hio
  have hlast : S.Lasting := by
    intro d id data ht hd
    rw [hfits] at hd ⊢
    exact hd.setContent data ht
  have hsince : base.Since S.target w.disk := by
    rw [← hfits]
    exact hw.fits
  obtain ⟨path, hlookup, hprepare⟩ := hstart.found
  have hrun : (ex.execute (.node .plain (name :: args) .none l r) (S.wire i o)).run ⟨S.here, w⟩ =
      (ex.runProgram (S.wire i o) (name :: args) path S.here.dir invocation).run ⟨S.here, w⟩ := by
    change (ex.plain (name :: args) .none (S.wire i o)).run _ = _
    rw [run_plain_cons, hstart.external]
    dsimp only
    rw [redirected_none, run_spawn]
    simp only [List.headD_cons, hsince.lookup, hsince.prepare hnameless, hlookup, hprepare, hroom]
  rw [hrun, run_runProgram, hp]
  have hrecord := World.sameStreams_record hrec "event"
  have hbegin : w.SameStreams w.begin := ⟨rfl, rfl, rfl, rfl, rfl⟩
  have hbefore := hbegin.trans (hrecord (.runCommand
    { command := some (name :: args), path, dir := S.here.dir, pid := (w.started : Int) + 1 }) _)
  have hdone : S.Filtered (.ofTransform make code) _ i o _ _ := Program.filtered_transform hlast
    (hw.of_sameStreams hbefore) (hio.of_sameStreams hbefore) invocation.dir
  have hended (w : World) (n : Nat) : w.SameStreams (w.tell (.ended n)) := ⟨rfl, rfl, rfl, rfl, rfl⟩
  exact hdone.of_sameStreams hbefore ((hended _ _).trans (hrecord _ _))

end Executor

end CommandShell
