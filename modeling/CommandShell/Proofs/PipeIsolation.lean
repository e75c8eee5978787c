import CommandShell.Proofs.EnvironmentCopy
import CommandShell.Proofs.Lockstep
import CommandShell.Sandbox
import Mathlib

/-! The sides of a pipe are isolated. Each starts from a copy of the shell's surroundings, and the shell
keeps its own. What the right side does is a run of its own, in which nothing of the left one occurs, so
that it learns of the left side only by the worlds that its moves find: the bytes in the pipe and in the
files. -/
namespace CommandShell
open Behaviour

instance : DecidablePred OnLeft := fun m => inferInstanceAs (Decidable (m.position.head? = some .left))

/-- The moves that the left side does not make. -/
def offLeft (moves : List Move) : List Move := moves.filter fun m => ¬ OnLeft m

theorem offLeft_append (a b : List Move) : offLeft (a ++ b) = offLeft a ++ offLeft b :=
  List.filter_append ..

theorem offLeft_eq_self {moves : List Move} (h : ∀ m ∈ moves, m.position = []) :
    offLeft moves = moves := by
  refine List.filter_eq_self.mpr fun m hm => ?_
  simp [OnLeft, h m hm]

theorem offLeft_map_right (moves : List Move) :
    offLeft (moves.map (Move.within .right)) = moves.map (Move.within .right) := by
  refine List.filter_eq_self.mpr fun m hm => ?_
  obtain ⟨inner, -, rfl⟩ := List.mem_map.mp hm
  rfl

theorem offLeft_map_left (moves : List Move) : offLeft (moves.map (Move.within .left)) = [] := by
  refine List.filter_eq_nil_iff.mpr fun m hm => ?_
  obtain ⟨inner, -, rfl⟩ := List.mem_map.mp hm
  simp [OnLeft, Move.within]

theorem Interleaving.filter {α : Type} {xs ys zs : List α} (P : α → Bool)
    (h : Interleaving xs ys zs) : Interleaving (xs.filter P) (ys.filter P) (zs.filter P) := by
  induction h with
  | nil => exact .nil
  | left x _ ih =>
    cases hx : P x
    · simpa [hx] using ih
    · simpa [hx] using ih.left x
  | right y _ ih =>
    cases hy : P y
    · simpa [hy] using ih
    · simpa [hy] using ih.right y

theorem Interleaving.eq_of_nil {α : Type} {ys zs : List α} (h : Interleaving [] ys zs) : zs = ys := by
  generalize he : ([] : List α) = xs at h
  induction h with
  | nil => rfl
  | left => cases he
  | right y _ ih => rw [ih he]

/-- Of both sides, the right one remains. -/
theorem Interleaving.offLeft_eq {lefts rights moves : List Move}
    (h : Interleaving (lefts.map (Move.within .left)) (rights.map (Move.within .right)) moves) :
    offLeft moves = rights.map (Move.within .right) := by
  have hright := h.filter fun m => ¬ OnLeft m
  rw [← offLeft, ← offLeft, ← offLeft, offLeft_map_left, offLeft_map_right] at hright
  exact hright.eq_of_nil

namespace Behaviour
variable {α β : Type} {T : Matching} {R : α → β → Prop} {x : Behaviour α} {y : Behaviour β}

/-- Something that is done in a copy of the surroundings. -/
def apart (x : Behaviour α) : Behaviour α := fun here moves a there =>
  there = here ∧ ∃ place, x here.fork moves a place

theorem Lockstep.apart (h : Lockstep T R x y) : Lockstep T R (apart x) (apart y) where
  of_runs := by
    rintro here moves a there moves' b there' ⟨rfl, place, hx⟩ ⟨rfl, place', hy⟩ hfacing
    obtain ⟨hab, -, hmoves⟩ := h.of_runs hx hy hfacing
    exact ⟨hab, rfl, hmoves⟩

end Behaviour

namespace Executor

/-- A pipe without what its left side does. -/
def rightOnly (ex : Executor) (right : Streams → Behaviour Status) (streams : Streams) :
    Behaviour Status := do
  match ← Concurrent.openPipe with
  | none =>
    Concurrent.say ex streams ("pipe: pipe2: " ++ PathError.tooManyFiles.message)
    return Status.unknown
  | some ends =>
    let status ← within .right
      (apart (Concurrent.side (right { streams with input := ends.read }) ends.read))
    change fun w => ((), w.dropPipe ends.number)
    return status

variable {ex : Executor} {streams : Streams} {here : Surroundings}

theorem PipeRun.rightOnly {left right : Streams → Behaviour Status} {moves : List Move}
    {status : Status} (h : PipeRun ex left right streams here moves status) :
    rightOnly ex right streams here (offLeft moves) status here := by
  cases h with
  | @refused opening told hopen hsay =>
    have hfirst := (InPlace.of_run (inPlace_step _) hopen).2
    have hlast := ((inPlace_say _).of_run hsay).2
    rw [offLeft_eq_self (List.forall_mem_append.mpr ⟨hfirst, hlast⟩), ← List.append_nil told]
    exact run_bind hopen (run_bind hsay (run_pure _ _))
  | @made ends opening lefts rights moves closing _ _ _ place' hopen hleft hright hmoves hclosing =>
    have hfirst := (InPlace.of_run (inPlace_step _) hopen).2
    have hlast := (InPlace.of_run (inPlace_step _) hclosing).2
    rw [offLeft_append, offLeft_append, hmoves.offLeft_eq, offLeft_eq_self hfirst,
      offLeft_eq_self hlast, ← List.append_nil closing]
    have hinner : within .right (apart (Concurrent.side (right { streams with input := ends.read })
        ends.read)) here (rights.map (Move.within .right)) status here :=
      ⟨rights, ⟨rfl, place', hright⟩, rfl⟩
    exact run_bind hopen (run_bind hinner (run_bind hclosing (run_pure _ _)))

theorem lockstep_rightOnly {T : Matching} {right : Streams → Behaviour Status}
    (hright : ∀ inner inner', inner.Alike T inner' → Lockstep T Eq (right inner) (right inner'))
    (houtput : T.pairs streams.output streams.output) (herror : T.pairs streams.error streams.error) :
    Lockstep T Eq (rightOnly ex right streams) (rightOnly ex right streams) := by
  refine lockstep_openPipe.bind ?_
  rintro _ _ (@⟨ends, ends', hends⟩ | _)
  · have hside := lockstep_side (hright { streams with input := ends.read }
      { streams with input := ends'.read } ⟨hends.read, houtput, herror⟩) hends.read
    refine (hside.apart.within .right).bind ?_
    rintro status _ rfl
    have hdrop : Lockstep T Eq (Behaviour.change fun w => ((), w.dropPipe ends.number))
        (Behaviour.change fun w => ((), w.dropPipe ends'.number)) :=
      lockstep_change fun hw _ => ⟨rfl, hw.alike.dropPipe hends.number⟩
    exact hdrop.bind fun _ _ _ => lockstep_pure rfl
  · exact (lockstep_write herror _).discard.bind fun _ _ _ => lockstep_pure rfl

/-- Whatever order both sides of a pipe do their work in, the pipe leaves the shell where it was, with
every variable as it was. Each side runs in a copy in which the directory and every variable are the
same, as they are in every environment made from a listing or by moving. And compared with a run in which
anything else is done on the left, as long as what is not on the left finds worlds that look alike, it
does the same in both: the bytes in the pipe, the disk and the open files of the right side are all that
it learns of the left one. The run of `execute` is among those that this is about. -/
theorem pipe_isolates_sides (ex : Executor) (argv : List Bytes) (files : Redirections) (l r : Tree)
    (streams : Streams) (s : Running) (henv : s.here.env.Plain) :
    let pipe : Tree := .node .pipe argv files l r
    let fork := s.here.fork
    (∀ moves status there, Concurrent.execute ex pipe streams s.here moves status there →
      there.dir = s.here.dir ∧ (∀ name, there.env.lookup? name = s.here.env.lookup? name) ∧
      PipeRun ex (Concurrent.execute ex l) (Concurrent.execute ex r) streams s.here moves status) ∧
    (fork.dir = s.here.dir ∧ ∀ name, fork.env.lookup? name = s.here.env.lookup? name) ∧
    ((∀ listing, (Environment.ofListing listing).Plain) ∧
      ∀ disk target moved, s.here.enter disk target = .ok moved → moved.env.Plain) ∧
    (∀ (T : Matching) (left : Streams → Behaviour Status) moves status there moves' status' there',
      T.pairs streams.output streams.output → T.pairs streams.error streams.error →
      (∀ handle ∈ ex.recorder.file?, T.pairs handle handle) →
      Concurrent.execute ex pipe streams s.here moves status there →
      Concurrent.pipe ex left (Concurrent.execute ex r) streams s.here moves' status' there' →
      (∀ p ∈ (offLeft moves).zip (offLeft moves'), p.1.Facing T p.2) →
      status' = status ∧ List.Forall₂ (Move.Alike T) (offLeft moves) (offLeft moves')) ∧
    let last := (ex.execute pipe streams).run s
    ∃ moves, Concurrent.execute ex pipe streams s.here moves last.1 last.2.here ∧
      s.world.Along moves last.2.world := by
  intro pipe fork
  refine ⟨fun moves status there h => ?_, ⟨rfl, henv.lookup?_fork⟩,
    ⟨Environment.plain_ofListing, fun _ _ _ => Surroundings.plain_enter henv⟩, ?_,
    ex.realizes_execute pipe streams s⟩
  · obtain ⟨rfl, hrun⟩ := pipeRun_of_pipe h
    exact ⟨rfl, fun _ => rfl, hrun⟩
  · intro T left moves status there moves' status' there' houtput herror hrecorder h h' hfacing
    have hlockstep : Lockstep T Eq (rightOnly ex (Concurrent.execute ex r) streams)
        (rightOnly ex (Concurrent.execute ex r) streams) :=
      lockstep_rightOnly (fun _ _ => lockstep_execute hrecorder r) houtput herror
    obtain ⟨hstatus, -, hmoves⟩ := hlockstep.of_runs (pipeRun_of_pipe h).2.rightOnly
      (pipeRun_of_pipe h').2.rightOnly hfacing
    exact ⟨hstatus.symm, hmoves⟩

end Executor

/-- Every number goes with itself. -/
def Matching.same : Matching := ⟨Eq, fun _ _ _ h h' => h.trans h'.symm, fun _ _ _ h h' => h.symm.trans h'⟩

theorem World.LooksLike.of_eq {w w' : World}
    (h : (w'.disk, w'.files, w'.pipes) = (w.disk, w.files, w.pipes)) : w.LooksLike .same w' := by
  obtain ⟨hd, hf, hp⟩ : w'.disk = w.disk ∧ w'.files = w.files ∧ w'.pipes = w.pipes := by simpa using h
  refine ⟨hd, ?_, ?_⟩
  · rintro a _ rfl
    rw [file?, file?, hf]
    cases (w.files.find? (·.1 == a)).map Prod.snd with
    | none => exact .none
    | some f =>
      refine .some ⟨?_, rfl, rfl⟩
      cases f.source with
      | disk stream => exact .disk stream
      | pipe n => exact .pipe rfl
  · rintro a _ rfl
    rw [pipe?, pipe?, hp]

/-- What the system will answer. -/
def World.answers (w : World) : Int × List Bool × Nat × Nat := (w.clock, w.outages, w.fresh, w.started)

theorem World.answers_write (w : World) (h : Nat) (s : Bytes) : (w.write h s).2.answers = w.answers := by
  unfold write
  split
  · rfl
  · split
    · split
      · rfl
      · rfl
      · split
        · rfl
        · split
          · rfl
          · split <;> rfl
    · rfl

theorem World.LooksLike.faces {w w' : World} (hw : w.LooksLike .same w')
    (h : w'.answers = w.answers) (later : World) : w.Faces .same later w' := by
  obtain ⟨hclock, houtages, hfresh, hstarted⟩ : w'.clock = w.clock ∧ w'.outages = w.outages ∧
      w'.fresh = w.fresh ∧ w'.started = w.started := by simpa [answers] using h
  refine { hw with clock := hclock, refusal := ?_, numbers := fun n _ => ?_, command := fun _ => hstarted }
  · rw [request, request, houtages]
  · rw [hfresh]
    exact rfl

/-- Left sides that move to different directories. The events tell one from the other, but the right side
does not look there. -/
theorem Executor.pipe_isolates_sides_cd :
    let ex : Executor := { name := [], programs := fun _ => .exit 0 }
    let cd (args : List Bytes) : Tree := .node .plain ("cd" :: args) {} .absent .absent
    let pipe (args : List Bytes) : Tree := .node .pipe [] {} (cd args) .absent
    let s : Running :=
      ⟨⟨"/", Environment.empty.set "HOME" "/dev"⟩, Sandbox.start (Sandbox.disk []) []⟩
    let opened := (s.world.openPipe none).2
    let left (args : List Bytes) :=
      ((ex.execute (cd args) ⟨0, 5, 2⟩).run ⟨s.here.fork, opened⟩).2.world.close 5
    s.here.env.Plain ∧
    (left []).events = [.builtin { command := some ["cd"] }] ∧
    (left ["/bin"]).events = [.builtin { command := some ["cd", "/bin"] }] ∧
    ∃ moves moves' status',
      Concurrent.execute ex (pipe []) Sandbox.streams s.here moves 255 s.here ∧
      Concurrent.execute ex (pipe ["/bin"]) Sandbox.streams s.here moves' status' s.here ∧
      (∀ p ∈ (offLeft moves).zip (offLeft moves'), p.1.Facing .same p.2) ∧ status' = 255 := by
  intro ex cd pipe s opened left
  have henv : s.here.env.Plain := by
    refine Environment.Plain.set ?_ (by decide) _
    rintro entry ⟨⟩
  let said (w : World) : World := w.print 2 "myshell: nothing to execute\n"
  let opening : Move := ⟨[], 0, s.world, opened, [⟨[.right], .opened 4⟩, ⟨[.left], .opened 5⟩]⟩
  let rights (w : World) : List Move :=
    [⟨[], 0, w, w, []⟩, ⟨[], 0, w, said w, []⟩, ⟨[], 0, said w, (said w).close 4, [⟨[], .closed 4⟩]⟩]
  let closing (w : World) : Move := ⟨[], 0, w, w.dropPipe 3, []⟩
  let after (w : World) : List Move :=
    (rights w).map (Move.within .right) ++ [closing ((said w).close 4)]
  have hopen : Concurrent.openPipe s.here [opening] (some ⟨3, 4, 5⟩) s.here := ⟨0, s.world, rfl, rfl, rfl⟩
  have hsay (w : World) : Concurrent.say ex ⟨4, 1, 2⟩ "nothing to execute" s.here.fork
      [⟨[], 0, w, w, []⟩, ⟨[], 0, w, said w, []⟩] () s.here.fork :=
    run_bind (run_write 2 _ _ w) (run_pure () _)
  have habsent (w : World) : Concurrent.execute ex .absent ⟨4, 1, 2⟩ s.here.fork
      [⟨[], 0, w, w, []⟩, ⟨[], 0, w, said w, []⟩] (-1) s.here.fork :=
    run_bind (hsay w) (run_pure _ _)
  have hrun (args : List Bytes) (w : World) : ∃ lefts : List Move,
      Concurrent.execute ex (pipe args) Sandbox.streams s.here
        (opening :: (lefts.map (Move.within .left) ++ after w)) 255 s.here := by
    obtain ⟨lefts, hleft, -⟩ := can_side (ex.realizes_execute (cd args) ⟨0, 5, 2⟩) 5 ⟨s.here.fork, opened⟩
    have hboth := run_both hleft (run_side (habsent w) 4 (said w)) (.append ..)
    have hclosing : change (fun w => ((), w.dropPipe 3)) s.here [closing ((said w).close 4)] () s.here :=
      run_step _ 0 _ _
    have hall : Concurrent.execute ex (pipe args) Sandbox.streams s.here _ 255 s.here :=
      run_bind hopen (run_bind hboth (run_bind hclosing (run_pure (255 : Status) s.here)))
    exact ⟨lefts, by simpa [after, rights] using hall⟩
  have hoff (lefts : List Move) (w : World) :
      offLeft (opening :: (lefts.map (Move.within .left) ++ after w)) = opening :: after w := by
    change offLeft ([opening] ++ (_ ++ ((rights w).map (Move.within .right) ++ [closing _]))) = _
    rw [offLeft_append, offLeft_append, offLeft_append, offLeft_map_left, offLeft_map_right]
    rfl
  obtain ⟨lefts, hrun₁⟩ := hrun [] (left [])
  obtain ⟨lefts', hrun₂⟩ := hrun ["/bin"] (left ["/bin"])
  have hlook : (left []).LooksLike .same (left ["/bin"]) := .of_eq (by cbv)
  have hsaid : (said (left [])).LooksLike .same (said (left ["/bin"])) :=
    (hlook.alike.write rfl _).2.toLooksLike
  have hclosed : ((said (left [])).close 4).LooksLike .same ((said (left ["/bin"])).close 4) :=
    (hsaid.alike.close rfl).toLooksLike
  have hanswers : (left ["/bin"]).answers = (left []).answers := by cbv
  have hsaidAnswers : (said (left ["/bin"])).answers = (said (left [])).answers :=
    (World.answers_write ..).trans (hanswers.trans (World.answers_write ..).symm)
  have hfacing : ∀ p ∈ (opening :: after (left [])).zip (opening :: after (left ["/bin"])),
      p.1.Facing .same p.2 := by
    intro p hp
    simp only [after, rights, List.map_cons, List.map_nil, List.cons_append, List.nil_append,
      List.zip_cons_cons, List.zip_nil_right, List.mem_cons, List.not_mem_nil, or_false] at hp
    rcases hp with rfl | rfl | rfl | rfl | rfl
    · exact ⟨rfl, rfl, (World.LooksLike.of_eq rfl).faces rfl _⟩
    · exact ⟨rfl, rfl, hlook.faces hanswers _⟩
    · exact ⟨rfl, rfl, hlook.faces hanswers _⟩
    · exact ⟨rfl, rfl, hsaid.faces hsaidAnswers _⟩
    · exact ⟨rfl, rfl, hclosed.faces hsaidAnswers _⟩
  rw [← hoff lefts, ← hoff lefts'] at hfacing
  refine ⟨henv, by cbv, by cbv, _, _, _, hrun₁, hrun₂, hfacing, ?_⟩
  exact ((ex.pipe_isolates_sides [] {} (cd []) .absent Sandbox.streams s henv).2.2.2.1 .same
    (Concurrent.execute ex (cd ["/bin"])) _ _ _ _ _ _ rfl rfl (by rintro _ ⟨⟩) hrun₁ hrun₂ hfacing).1

end CommandShell
