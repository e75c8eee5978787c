import CommandShell.Proofs.FileNews
import CommandShell.Sandbox
import Mathlib

/-! No file leaks, whatever order the two sides of a pipe do their work in. A step lemma says of each
move what it does to the table of open files, and the news of a tree say which files are closed when.
With the numbers that a world gives to files, both leave the table as it was. -/
namespace CommandShell

namespace Behaviour
variable {α β : Type} {x : Behaviour α} {P : Move → Prop}

/-- Every move of something is of a kind. -/
structure Each (P : Move → Prop) (x : Behaviour α) : Prop where
  of_mem : ∀ {here moves a there}, x here moves a there → ∀ m ∈ moves, P m

/-- A kind of moves that has all moves of the one or the other side, and those that do nothing to the
files of the shell. -/
structure Usual (P : Move → Prop) : Prop where
  sides : ∀ side m, P m → P (m.within side)
  drifts : ∀ choice w w', w.Drifts w' → P ⟨[], choice, w, w', []⟩

theorem each_pure (a : α) : Each P (pure a : Behaviour α) where
  of_mem := by
    rintro here moves b there ⟨rfl, -, -⟩ m hm
    cases hm

theorem Each.bind {f : α → Behaviour β} (hx : Each P x) (hf : ∀ a, Each P (f a)) :
    Each P (x >>= f) where
  of_mem := by
    rintro here moves b there ⟨first, a, middle, rest, hfirst, hrest, rfl⟩ m hm
    rcases List.mem_append.mp hm with hm | hm
    · exact hx.of_mem hfirst m hm
    · exact (hf a).of_mem hrest m hm

theorem each_step {f : Nat → World → Step α}
    (h : ∀ choice w, P ⟨[], choice, w, (f choice w).world, (f choice w).news⟩) :
    Each P (step f) where
  of_mem := by
    rintro here moves a there ⟨choice, w, rfl, -, -⟩ m hm
    obtain rfl := List.mem_singleton.mp hm
    exact h choice w

theorem each_surroundings : Each P surroundings where
  of_mem := by
    rintro here moves a there ⟨rfl, -⟩ m hm
    cases hm

theorem each_enter (place : Surroundings) : Each P (enter place) where
  of_mem := by
    rintro here moves a there ⟨rfl, -⟩ m hm
    cases hm

namespace Usual
variable (hP : Usual P)
include hP

theorem each_within (side : Side) (hx : Each P x) : Each P (within side x) where
  of_mem := by
    rintro here moves a there ⟨inner, hinner, rfl⟩ m hm
    obtain ⟨n, hn, rfl⟩ := List.mem_map.mp hm
    exact hP.sides side n (hx.of_mem hinner n hn)

theorem each_both {y : Behaviour β} (hx : Each P x) (hy : Each P y) : Each P (both x y) where
  of_mem := by
    rintro here moves c there ⟨-, left, right, ⟨place, hleft⟩, ⟨place', hright⟩, hmoves⟩ m hm
    rcases List.mem_append.mp (hmoves.perm.mem_iff.mp hm) with hm | hm
    · exact (hP.each_within .left hx).of_mem hleft m hm
    · exact (hP.each_within .right hy).of_mem hright m hm

theorem each_quiet {f : Nat → World → α × World} (h : ∀ choice (w : World), w.Drifts (f choice w).2) :
    Each P (step fun choice w => { result := (f choice w).1, world := (f choice w).2 }) :=
  each_step fun choice w => hP.drifts choice _ _ (h choice w)

theorem each_look (f : World → α) : Each P (look f) :=
  hP.each_quiet (f := fun _ w => (f w, w)) fun _ w => .refl w

theorem each_change {f : World → α × World} (h : ∀ w : World, w.Drifts (f w).2) : Each P (change f) :=
  hP.each_quiet (f := fun _ w => f w) fun _ w => h w

theorem each_choose : Each P choose := hP.each_quiet (f := fun n w => (n, w)) fun _ w => .refl w

theorem each_read (h : Nat) (amount : Bytes → Nat) : Each P (read h amount) := by
  refine hP.each_choose.bind fun n => ?_
  generalize [] = got
  induction n generalizing got with
  | zero => exact each_pure got
  | succ n ih =>
    refine Each.bind (each_step fun choice w => ?_) ih
    exact hP.drifts _ _ _ (w.quiet_consume ..).drifts

theorem each_copy (source target : Nat) : Each P (copy source target) := by
  refine hP.each_choose.bind fun n => ?_
  induction n with
  | zero => exact each_pure true
  | succ n ih =>
    refine Each.bind (each_step fun choice w => ?_) fun alive => ?_
    · exact hP.drifts _ _ _ ((w.quiet_consume ..).trans (World.quiet_write ..)).drifts
    · cases alive
      · exact each_pure false
      · exact ih

theorem each_write (h : Nat) (s : Bytes) : Each P (write h s) := by
  refine hP.each_choose.bind fun n => ?_
  induction n generalizing s with
  | zero => exact hP.each_change fun w => (w.quiet_write h s).drifts
  | succ n ih =>
    refine Each.bind (each_step fun choice w => ?_) fun p => ?_
    · exact hP.drifts _ _ _ (w.quiet_write ..).drifts
    · obtain ⟨_ | _, rest⟩ := p
      · exact each_pure false
      · exact ih rest

/-- A program opens and closes no file of the shell. -/
theorem each_program (streams : Streams) (dir : Place) (p : Program) :
    Each P (p.behaviour streams dir) := by
  have change {α : Type} (f : Disk → Except PathError Disk) {next : Bool → Behaviour α}
      (h : ∀ done, Each P (next done)) :
      Each P (Behaviour.change (fun w => Program.change w f) >>= next) :=
    (hP.each_change fun w => (w.quiet_change f).drifts).bind h
  have unlessKilled {x : Behaviour Bool} {next : Behaviour Outcome} (hx : Each P x) (h : Each P next) :
      Each P (do if ← x then next else return .killed) := by
    refine hx.bind fun alive => ?_
    cases alive
    · exact each_pure _
    · exact h
  induction p with
  | exit | die => exact each_pure _
  | read amount next ih => exact (hP.each_read streams.input amount).bind ih
  | copy next ih => exact unlessKilled (hP.each_copy streams.input streams.output) ih
  | print text next ih => exact unlessKilled (hP.each_write streams.output text) ih
  | complain text next ih => exact unlessKilled (hP.each_write streams.error text) ih
  | readFile path next ih => exact (hP.each_look _).bind ih
  | remove path next ih | makeDirectory path next ih => exact change _ ih

end Usual

end Behaviour

/-! The moves of the executor. -/

namespace Executor
open Behaviour
variable (ex : Executor) (argv : List Bytes) (files : Redirections) (streams : Streams)

section
variable {P : Move → Prop} (hP : Usual P)
include hP

theorem each_say (text : Bytes) : Each P (Concurrent.say ex streams text) :=
  (hP.each_write streams.error _).bind fun _ => each_pure _

theorem each_record (e : Event) : Each P (Concurrent.record ex e) :=
  hP.each_change fun w => (w.quiet_record ex.recorder "event" e).drifts

theorem each_notStarted (subject reason : Bytes) (status : Status) :
    Each P (Concurrent.notStarted ex streams argv subject reason status) :=
  (ex.each_say streams hP _).bind fun _ => (ex.each_record hP _).bind fun _ => each_pure _

theorem each_reportSide (name : Bytes) (status : Status) :
    Each P (Concurrent.reportSide ex streams name status) := by
  unfold Concurrent.reportSide
  split
  · exact ex.each_say streams hP _
  · exact each_pure _

theorem each_builtin (b : Builtin) : Each P (Concurrent.builtin ex streams argv b) := by
  cases b with
  | cd =>
    refine each_surroundings.bind fun here => (hP.each_look _).bind fun result => ?_
    cases result with
    | ok moved =>
      exact (each_enter moved.2).bind fun _ => ((hP.each_write streams.output _).bind fun _ =>
        each_pure _).bind fun _ => (ex.each_record hP _).bind fun _ => each_pure _
    | error e =>
      exact (ex.each_say streams hP _).bind fun _ => (ex.each_record hP _).bind fun _ => each_pure _

end

end Executor

/-- What a move tells is what it does to the files of the shell: the table loses what is closed, and
what is opened comes to its front under new numbers. -/
structure Move.Told (m : Move) : Prop where
  history : m.after.history = m.before.history ++ m.news.map News.happening
  fresh : m.before.fresh ≤ m.after.fresh
  opened : ∀ h ∈ (openings m.news).handles, m.before.fresh ≤ h ∧ h < m.after.fresh
  once : (openings m.news).handles.Nodup
  table : ∃ front, m.after.table =
      front ++ m.before.table.filter (fun entry => decide (entry.1 ∉ (closings m.news).handles)) ∧
    ∀ entry ∈ front, entry.1 ∈ (openings m.news).handles
  apart : openings m.news = [] ∨ closings m.news = []

theorem usual_told : Behaviour.Usual Move.Told where
  sides side m h := by
    have hopenings : (openings (m.within side).news).handles = (openings m.news).handles := by
      simp [Move.within, openings_within, Held.within, Held.handles]
    have hclosings : (closings (m.within side).news).handles = (closings m.news).handles := by
      simp [Move.within, closings_within, Held.within, Held.handles]
    refine ⟨?_, h.fresh, ?_, ?_, ?_, ?_⟩
    · rw [Move.within, List.map_map]
      exact h.history
    · rw [hopenings]
      exact h.opened
    · rw [hopenings]
      exact h.once
    · rw [hopenings, hclosings]
      exact h.table
    · refine h.apart.imp (fun ho => ?_) (fun hc => ?_)
      · rw [Move.within, openings_within, ho]
        rfl
      · rw [Move.within, closings_within, hc]
        rfl
  drifts choice w w' h := by
    refine ⟨by simpa using h.history, h.fresh, by simp [openings, Held.handles],
      by simp [openings, Held.handles], ⟨[], ?_, by simp⟩, .inl rfl⟩
    simpa [closings, Held.handles] using h.table

theorem usual_silent : Behaviour.Usual fun m => m.news = [] where
  sides side m h := by simp [Move.within, h]
  drifts _ _ _ _ := rfl

namespace Executor
open Behaviour
variable (ex : Executor) (argv : List Bytes) (files : Redirections) (streams : Streams)

theorem told_openPath (access : Disk.Access) (path : Bytes) :
    Each Move.Told (Concurrent.openPath access path) := by
  refine each_step fun choice w => ?_
  split
  · next handle world ho =>
    have hopened := World.opened_openPath ho
    obtain ⟨front, hfront, hnew⟩ := hopened.table
    refine ⟨hopened.history, hopened.fresh, hopened.numbers, hopened.nodup, ⟨front, ?_, ?_⟩, .inr rfl⟩
    · simpa [closings, Held.handles] using hfront
    · exact fun entry hm => (hnew entry hm).1
  · next e world ho =>
    exact usual_told.drifts choice w world (World.quiet_openPath ho).drifts

theorem told_close (handle : Nat) : Each Move.Told (Concurrent.close handle) := by
  refine each_step fun choice w => ⟨rfl, Nat.le_refl _, ?_, ?_, ⟨[], ?_, ?_⟩, .inl rfl⟩
  · simp [openings, Held.handles]
  · simp [openings, Held.handles]
  · rw [World.table_close]
    refine List.filter_congr fun entry _ => ?_
    by_cases he : entry.1 = handle <;> simp [closings, Held.handles, he]
  · simp

theorem told_closeAll (handles : List Nat) : Each Move.Told (Concurrent.closeAll handles) := by
  induction handles with
  | nil => exact each_pure ()
  | cons handle rest ih => exact (told_close handle).bind fun _ => ih

theorem told_openTargets (list : List Target) (opened : List Nat) :
    Each Move.Told (Concurrent.openTargets ex argv list streams opened) := by
  induction list generalizing streams opened with
  | nil => exact each_pure _
  | cons target rest ih =>
    refine each_surroundings.bind fun here => (told_openPath _ _).bind fun result => ?_
    cases result with
    | ok handle => exact ih _ _
    | error e =>
      exact (ex.each_say streams usual_told _).bind fun _ => (ex.each_record usual_told _).bind fun _ =>
        (told_closeAll opened).bind fun _ => each_pure _

theorem told_redirected {body : Streams → Behaviour Status} (h : ∀ inner, Each Move.Told (body inner)) :
    Each Move.Told (Concurrent.redirected ex argv files streams body) := by
  refine (ex.told_openTargets argv streams _ _).bind fun opened => ?_
  cases opened with
  | none => exact each_pure _
  | some opened => exact (h _).bind fun _ => (told_closeAll _).bind fun _ => each_pure _

/-- A command that begins or ends opens and closes nothing. -/
theorem told_of_tell (choice : Nat) {w w' : World} {e : Happening} (he : e matches .began _ | .ended _)
    (hw : w.Drifts w') : Move.Told ⟨[], choice, w, w'.tell e, [⟨[], e⟩]⟩ := by
  have hopenings : openings [⟨[], e⟩] = [] := by cases e <;> simp_all [openings]
  have hclosings : closings [⟨[], e⟩] = [] := by cases e <;> simp_all [closings]
  refine ⟨congrArg (· ++ [e]) hw.history, hw.fresh, ?_, ?_, ⟨[], ?_, by simp⟩, .inl hopenings⟩
  · simp [hopenings, Held.handles]
  · simp [hopenings, Held.handles]
  · have htable : (w'.tell e).table = w.table := hw.table
    simpa [hclosings, Held.handles] using htable

theorem told_spawn : Each Move.Told (Concurrent.spawn ex streams argv) := by
  refine each_surroundings.bind fun here => (usual_told.each_look _).bind fun result => ?_
  cases result with
  | error e => exact ex.each_notStarted argv streams usual_told ..
  | ok path =>
    refine Each.bind (each_step fun choice w => ?_) fun launched => ?_
    · split
      · exact usual_told.drifts choice w w (.refl w)
      · split
        · exact usual_told.drifts choice w w (.refl w)
        · exact told_of_tell choice rfl ⟨rfl, rfl, Nat.le_refl _⟩
    · cases launched with
      | failed reason => exact ex.each_notStarted argv streams usual_told ..
      | short e => exact ex.each_notStarted argv streams usual_told ..
      | started number invocation =>
        refine (usual_told.each_both (ex.each_record usual_told _)
          (usual_told.each_program ..)).bind fun ended => ?_
        refine Each.bind (each_step fun choice w => ?_) fun _ =>
          (ex.each_record usual_told _).bind fun _ => each_pure _
        exact told_of_tell choice rfl (.refl w)

theorem told_plain : Each Move.Told (Concurrent.plain ex argv files streams) := by
  cases argv with
  | nil => exact (ex.each_say streams usual_told _).bind fun _ => each_pure _
  | cons name args =>
    rw [Concurrent.plain]
    cases Builtin.ofName? name with
    | some b => exact ex.each_builtin (name :: args) streams usual_told b
    | none =>
      exact ex.told_redirected (name :: args) files streams fun inner => ex.told_spawn (name :: args) inner

theorem told_openPipe : Each Move.Told Concurrent.openPipe := by
  refine each_step fun choice w => ?_
  split
  · next world ho => exact usual_told.drifts choice w world (World.openPipe_none ho).drifts
  · next ends world ho =>
    obtain ⟨granted, opened, hq, -, hread, hwrite⟩ := World.openPipe_some ho
    have hboth := hread.trans hwrite
    obtain ⟨front, hfront, hnew⟩ := hboth.table
    have hfresh : w.fresh ≤ (granted.withPipe none).fresh := by
      rw [← hq.fresh]
      exact Nat.le_succ _
    refine ⟨?_, Nat.le_trans hfresh hboth.fresh, ?_, hboth.nodup,
      ⟨front, ?_, fun entry hm => (hnew entry hm).1⟩, .inr rfl⟩
    · exact hboth.history.trans (congrArg (· ++ _) hq.history)
    · intro h hm
      obtain ⟨hlow, hhigh⟩ := hboth.numbers h hm
      exact ⟨Nat.le_trans hfresh hlow, hhigh⟩
    · have htable : world.table = front ++ w.table := hfront.trans (congrArg (front ++ ·) hq.table)
      simpa [closings, Held.handles] using htable

theorem told_side {body : Behaviour Status} (h : Each Move.Told body) (handle : Nat) :
    Each Move.Told (Concurrent.side body handle) :=
  h.bind fun _ => (told_close handle).bind fun _ => each_pure _

theorem told_pipe {left right : Streams → Behaviour Status} (hl : ∀ inner, Each Move.Told (left inner))
    (hr : ∀ inner, Each Move.Told (right inner)) :
    Each Move.Told (Concurrent.pipe ex left right streams) := by
  refine told_openPipe.bind fun result => ?_
  cases result with
  | none => exact (ex.each_say streams usual_told _).bind fun _ => each_pure _
  | some ends =>
    refine (usual_told.each_both (told_side (hl _) _) (told_side (hr _) _)).bind fun _ => ?_
    exact (usual_told.each_change fun w => ⟨rfl, rfl, Nat.le_refl _⟩).bind fun _ => each_pure _

/-- The step lemma: each move of a run does to the files of the shell what it tells. -/
theorem told_execute (t : Tree) (streams : Streams) :
    Each Move.Told (Concurrent.execute ex t streams) := by
  induction t generalizing streams with
  | absent => exact (ex.each_say streams usual_told _).bind fun _ => each_pure _
  | node kind argv files l r ihl ihr =>
    have hl (streams : Streams) := usual_told.each_within .left (ihl streams)
    have hr (streams : Streams) := usual_told.each_within .right (ihr streams)
    cases kind with
    | plain => exact ex.told_plain argv files streams
    | sequence =>
      exact (hl streams).bind fun status => (ex.each_reportSide streams usual_told "left" status).bind
        fun _ => (hr streams).bind fun status =>
          (ex.each_reportSide streams usual_told "right" status).bind fun _ => each_pure _
    | and | or =>
      refine (hl streams).bind fun status => ?_
      split
      · exact each_pure _
      · exact hr streams
    | pipe => exact ex.told_pipe streams ihl ihr
    | subshell =>
      exact ex.told_redirected argv files streams fun inner => (hl inner).bind fun _ => each_pure _
    | unknown => exact (ex.each_say streams usual_told _).bind fun _ => each_pure _

end Executor

/-! What is held before and after each thing that the executor does. -/

namespace Behaviour
variable {α β : Type} {x : Behaviour α} {held : Held} {after : α → Held}

/-- What is told comes from the files held before, and leaves those held afterwards. -/
structure Holds (held : Held) (x : Behaviour α) (after : α → Held) : Prop where
  of_run : ∀ {here moves a there}, x here moves a there → Keeps held (newsOf moves) (after a)

theorem holds_pure (a : α) (after : α → Held) : Holds (after a) (pure a) after where
  of_run := by
    rintro here moves b there ⟨rfl, rfl, -⟩
    exact .nil _

theorem Holds.bind {f : α → Behaviour β} {last : β → Held} (hx : Holds held x after)
    (hf : ∀ a, Holds (after a) (f a) last) : Holds held (x >>= f) last where
  of_run := by
    rintro here moves b there ⟨first, a, middle, rest, hfirst, hrest, rfl⟩
    rw [newsOf_append]
    exact (hx.of_run hfirst).trans ((hf a).of_run hrest)

theorem Holds.perm {held' : Held} (h : Holds held x after) (hp : held'.Perm held) :
    Holds held' x after where
  of_run hrun := (h.of_run hrun).perm hp

/-- Files that are held besides stay as they are. -/
theorem Holds.frame (more : Held) (h : Holds held x after) :
    Holds (more ++ held) x fun a => more ++ after a where
  of_run hrun := (h.of_run hrun).frame more

theorem holds_step {f : Nat → World → Step α}
    (h : ∀ choice w, Keeps held (f choice w).news (after (f choice w).result)) :
    Holds held (step f) after where
  of_run := by
    rintro here moves a there ⟨choice, w, rfl, rfl, -⟩
    simpa [newsOf] using h choice w

/-- Something of which nothing is told. -/
abbrev Silent (x : Behaviour α) : Prop := Each (fun m => m.news = []) x

theorem Each.newsOf_eq {here there : Surroundings} {moves : List Move} {a : α} (h : Silent x)
    (hrun : x here moves a there) : newsOf moves = [] :=
  List.flatMap_eq_nil_iff.mpr (h.of_mem hrun)

theorem Each.holds (h : Silent x) (held : Held) : Holds held x fun _ => held where
  of_run hrun := by
    rw [h.newsOf_eq hrun]
    exact .nil held

/-- Something that leaves no file open that it opened. -/
abbrev Tidy (x : Behaviour α) : Prop := Holds [] x fun _ => []

theorem Tidy.within (side : Side) (h : Tidy x) : Tidy (within side x) where
  of_run := by
    rintro here moves a there ⟨inner, hinner, rfl⟩
    rw [newsOf_within]
    exact (h.of_run hinner).within side

/-- Two sides that each close what they were handed. -/
theorem Holds.both {y : Behaviour β} {held' : Held} (hx : Holds held x fun _ => [])
    (hy : Holds held' y fun _ => []) :
    Holds (held.within .left ++ held'.within .right) (both x y) fun _ => [] where
  of_run := by
    rintro here moves c there
      ⟨-, _, _, ⟨place, left, hleft, rfl⟩, ⟨place', right, hright, rfl⟩, hmoves⟩
    have hnews := hmoves.newsOf
    rw [newsOf_within, newsOf_within] at hnews
    exact (hx.of_run hleft).both (hy.of_run hright) hnews

end Behaviour

namespace Executor
open Behaviour
variable (ex : Executor) (argv : List Bytes) (files : Redirections) (streams : Streams)

/-- Files that a node opened for itself. -/
def own (handles : List Nat) : Held := handles.map fun handle => ([], handle)

theorem holds_closeAll (handles : List Nat) :
    Holds (own handles) (Concurrent.closeAll handles) fun _ => [] := by
  induction handles with
  | nil => exact (each_pure ()).holds []
  | cons handle rest ih =>
    have hclose : Holds [([], handle)] (Concurrent.close handle) fun _ => [] :=
      holds_step fun _ _ => .closed [] handle
    refine ((hclose.frame (own rest)).perm (List.perm_append_singleton ([], handle) (own rest)).symm).bind
      fun _ => ?_
    rw [List.append_nil]
    exact ih

theorem holds_openTargets (list : List Target) (opened : List Nat) :
    Holds (own opened) (Concurrent.openTargets ex argv list streams opened) fun result =>
      own ((result.map Prod.snd).getD []) := by
  induction list generalizing streams opened with
  | nil => exact holds_pure (some (streams, opened)) fun result => own ((result.map Prod.snd).getD [])
  | cons target rest ih =>
    refine (each_surroundings.holds _).bind fun here => ?_
    have hopen : Holds [] (Concurrent.openPath target.access (Path.resolve here.dir target.path))
        fun result => own result.toOption.toList := by
      refine holds_step fun _ w => ?_
      split
      · exact .opened [] _
      · exact .nil []
    refine ((hopen.frame (own opened)).perm (.of_eq (List.append_nil _).symm)).bind fun result => ?_
    cases result with
    | ok handle =>
      have hmore : own opened ++ own [handle] = own (opened ++ [handle]) := List.map_append.symm
      exact (ih _ (opened ++ [handle])).perm (.of_eq hmore)
    | error e =>
      refine Holds.perm ?_ (.of_eq (List.append_nil (own opened)))
      refine ((ex.each_say streams usual_silent _).holds _).bind fun _ => ?_
      refine ((ex.each_record usual_silent _).holds _).bind fun _ => ?_
      exact (holds_closeAll opened).bind fun _ =>
        holds_pure none fun result => own ((result.map Prod.snd).getD [])

theorem tidy_redirected {body : Streams → Behaviour Status} (h : ∀ inner, Tidy (body inner)) :
    Tidy (Concurrent.redirected ex argv files streams body) := by
  refine (ex.holds_openTargets argv streams (targets files) []).bind fun result => ?_
  cases result with
  | none => exact (each_pure _).holds []
  | some result =>
    obtain ⟨inner, opened⟩ := result
    have hbody := ((h inner).frame (own opened)).perm (.of_eq (List.append_nil _).symm)
    refine hbody.bind fun status => ?_
    rw [List.append_nil]
    exact (holds_closeAll opened).bind fun _ => (each_pure status).holds []

/-- Of a program that is waited for, only its end is told. -/
theorem newsOf_await {here there : Surroundings} {moves : List Move} {status : Status}
    {path dir : Bytes} {number : Nat} {invocation : Invocation}
    (h : Concurrent.await ex streams argv path dir number invocation here moves status there) :
    newsOf moves = [⟨[], .ended number⟩] := by
  obtain ⟨first, ended, middle, _, hfirst, hrest, rfl⟩ := h
  obtain ⟨_, _, _, _, ⟨choice, w, rfl, -, -⟩, ⟨_, _, _, _, hrecord, ⟨rfl, -, -⟩, rfl⟩, rfl⟩ := hrest
  have hboth := (usual_silent.each_both (ex.each_record usual_silent _)
    (usual_silent.each_program ..)).newsOf_eq hfirst
  have hlast := (ex.each_record usual_silent _).newsOf_eq hrecord
  rw [newsOf_append, newsOf_append, newsOf_append, hboth, hlast]
  rfl

theorem tidy_spawn : Tidy (Concurrent.spawn ex streams argv) := by
  have failed (subject reason : Bytes) (status : Status) :
      Tidy (Concurrent.notStarted ex streams argv subject reason status) :=
    (ex.each_notStarted argv streams usual_silent subject reason status).holds []
  refine (each_surroundings.holds _).bind fun here => ?_
  refine ((usual_silent.each_look _).holds []).bind fun result => ?_
  cases result with
  | error e => exact failed ..
  | ok path =>
    constructor
    rintro _ moves status there ⟨_, launched, middle, rest, ⟨choice, w, rfl, rfl, -⟩, hrest, rfl⟩
    rw [newsOf_append]
    revert hrest
    dsimp only
    cases Launch.prepare w.disk here.dir path argv here.env.listing with
    | error e => exact fun hrest => (failed ..).of_run hrest
    | ok invocation =>
      dsimp only
      cases ex.shortage invocation with
      | some e => exact fun hrest => (failed ..).of_run hrest
      | none =>
        intro hrest
        rw [ex.newsOf_await argv streams hrest]
        exact .ran [] (w.started + 1)

theorem tidy_plain : Tidy (Concurrent.plain ex argv files streams) := by
  cases argv with
  | nil => exact ((ex.each_say streams usual_silent _).bind fun _ => each_pure _).holds []
  | cons name args =>
    rw [Concurrent.plain]
    cases Builtin.ofName? name with
    | some b => exact (ex.each_builtin (name :: args) streams usual_silent b).holds []
    | none =>
      exact ex.tidy_redirected (name :: args) files streams fun inner => ex.tidy_spawn (name :: args) inner

theorem holds_side {body : Behaviour Status} (h : Tidy body) (handle : Nat) :
    Holds (own [handle]) (Concurrent.side body handle) fun _ => [] := by
  have hclose : Holds (own [handle]) (Concurrent.close handle) fun _ => [] :=
    holds_step fun _ _ => .closed [] handle
  have hbody := (h.frame (own [handle])).perm (.of_eq (List.append_nil _).symm)
  refine hbody.bind fun status => ?_
  rw [List.append_nil]
  exact hclose.bind fun _ => (each_pure _).holds []

/-- The ends of a pipe that was asked for, each with the side that it was opened for. -/
def endsOf : Option World.PipeEnds → Held
  | none => []
  | some ends => [([.right], ends.read), ([.left], ends.write)]

theorem holds_openPipe : Holds [] Concurrent.openPipe endsOf := by
  refine holds_step fun _ w => ?_
  split
  · exact .nil []
  · next ends _ _ =>
    exact (Keeps.opened [.right] ends.read).trans
      ((Keeps.opened [.left] ends.write).frame [([.right], ends.read)])

/-- Each end of a pipe is closed by the side that it was opened for. -/
theorem tidy_pipe {left right : Streams → Behaviour Status} (hl : ∀ inner, Tidy (left inner))
    (hr : ∀ inner, Tidy (right inner)) : Tidy (Concurrent.pipe ex left right streams) := by
  refine holds_openPipe.bind fun result => ?_
  cases result with
  | none => exact ((ex.each_say streams usual_silent _).bind fun _ => each_pure _).holds []
  | some ends =>
    have hsides := (holds_side (hl { streams with output := ends.write }) ends.write).both
      (holds_side (hr { streams with input := ends.read }) ends.read)
    refine (hsides.perm (.swap ..)).bind fun result => ?_
    exact ((usual_silent.each_change fun w => ⟨rfl, rfl, Nat.le_refl _⟩).bind fun _ =>
      each_pure _).holds []

/-- What a tree opens for its nodes, it closes. -/
theorem tidy_execute (t : Tree) (streams : Streams) : Tidy (Concurrent.execute ex t streams) := by
  induction t generalizing streams with
  | absent => exact ((ex.each_say streams usual_silent _).bind fun _ => each_pure _).holds []
  | node kind argv files l r ihl ihr =>
    have report (name : Bytes) (status : Status) : Tidy (Concurrent.reportSide ex streams name status) :=
      (ex.each_reportSide streams usual_silent name status).holds []
    cases kind with
    | plain => exact ex.tidy_plain argv files streams
    | sequence =>
      exact ((ihl streams).within .left).bind fun status => (report "left" status).bind fun _ =>
        ((ihr streams).within .right).bind fun status => (report "right" status).bind fun _ =>
          (each_pure _).holds []
    | and | or =>
      refine ((ihl streams).within .left).bind fun status => ?_
      split
      · exact (each_pure _).holds []
      · exact (ihr streams).within .right
    | pipe => exact ex.tidy_pipe streams ihl ihr
    | subshell =>
      exact ex.tidy_redirected argv files streams fun inner =>
        ((ihl inner).within .left).bind fun _ => (each_pure _).holds []
    | unknown => exact ((ex.each_say streams usual_silent _).bind fun _ => each_pure _).holds []

end Executor

/-! What a run has made of the table of open files so far. -/

/-- Nothing is closed that was not opened before. -/
def Sparing (news : List News) : Prop :=
  ∀ before p h rest, news = before ++ ⟨p, .closed h⟩ :: rest → (p, h) ∈ openings before

theorem Sparing.of_append {a b : List News} (h : Sparing (a ++ b)) : Sparing a := by
  rintro before p handle rest rfl
  exact h before p handle (rest ++ b) (by simp)

theorem Sparing.mem {news : List News} (hs : Sparing news) {h : Nat}
    (hm : h ∈ (closings news).handles) : h ∈ (openings news).handles := by
  obtain ⟨⟨p, handle⟩, hclosed, rfl⟩ := List.mem_map.mp hm
  obtain ⟨before, rest, rfl⟩ := List.append_of_mem (mem_closings.mp hclosed)
  refine List.mem_map_of_mem (f := Prod.snd) (a := (p, handle)) ?_
  rw [openings_append]
  exact List.mem_append_left _ (hs before p handle rest rfl)

/-- The open files of a world are those of an earlier one and those that the news since then tell of. -/
structure World.Since (w : World) (news : List News) (v : World) : Prop where
  history : v.history = w.history ++ news.map News.happening
  fresh : w.fresh ≤ v.fresh
  opened : ∀ h ∈ (openings news).handles, w.fresh ≤ h ∧ h < v.fresh
  once : (openings news).handles.Nodup
  table : ∃ front, v.table = front ++ w.table ∧ ∀ entry ∈ front,
    entry.1 ∈ (openings news).handles ∧ entry.1 ∉ (closings news).handles

namespace World.Since
variable {w u v : World} {news : List News}

theorem refl (w : World) : w.Since [] w where
  history := by simp
  fresh := Nat.le_refl _
  opened := by simp [openings, Held.handles]
  once := by simp [openings, Held.handles]
  table := ⟨[], by simp⟩

theorem drifts (h : w.Since news u) (hd : u.Drifts v) : w.Since news v where
  history := hd.history.trans h.history
  fresh := Nat.le_trans h.fresh hd.fresh
  opened handle hm := ⟨(h.opened handle hm).1, Nat.lt_of_lt_of_le (h.opened handle hm).2 hd.fresh⟩
  once := h.once
  table := by
    rw [hd.table]
    exact h.table

section
variable {m : Move} (hw : ∀ entry ∈ w.table, entry.1 < w.fresh) (h : w.Since news m.before)
  (hm : m.Told) (hs : Sparing (news ++ m.news))

include h hm in
theorem opened_move : ∀ handle ∈ (openings (news ++ m.news)).handles,
    w.fresh ≤ handle ∧ handle < m.after.fresh := by
  intro handle hin
  rw [openings_append, Held.handles_append] at hin
  rcases List.mem_append.mp hin with hin | hin
  · exact ⟨(h.opened handle hin).1, Nat.lt_of_lt_of_le (h.opened handle hin).2 hm.fresh⟩
  · exact ⟨Nat.le_trans h.fresh (hm.opened handle hin).1, (hm.opened handle hin).2⟩

include hw h hm hs in
/-- No file that was open from the start is closed. -/
theorem filter_table :
    w.table.filter (fun entry => decide (entry.1 ∉ (closings m.news).handles)) = w.table := by
  refine List.filter_eq_self.mpr fun entry hin => decide_eq_true fun hclosed => ?_
  have hmem : entry.1 ∈ (closings (news ++ m.news)).handles := by
    rw [closings_append, Held.handles_append]
    exact List.mem_append_right _ hclosed
  have hlow := hw entry hin
  have hhigh := (h.opened_move hm _ (hs.mem hmem)).1
  omega

include h hm hs in
/-- What a move opens has a number that nothing had before, so that it is not taken for closed. -/
theorem not_closed_of_opened {handle : Nat} (hopened : handle ∈ (openings m.news).handles) :
    handle ∉ (closings (news ++ m.news)).handles := by
  intro hclosed
  rw [closings_append, Held.handles_append] at hclosed
  rcases List.mem_append.mp hclosed with hclosed | hclosed
  · have hlow := (h.opened _ (hs.of_append.mem hclosed)).2
    have hhigh := (hm.opened _ hopened).1
    omega
  · rcases hm.apart with ha | ha
    · simp [ha, Held.handles] at hopened
    · simp [ha, Held.handles] at hclosed

include hw h hm hs in
theorem move : w.Since (news ++ m.news) m.after := by
  refine ⟨?_, Nat.le_trans h.fresh hm.fresh, h.opened_move hm, ?_, ?_⟩
  · rw [hm.history, h.history, List.map_append, List.append_assoc]
  · rw [openings_append, Held.handles_append, List.nodup_append]
    refine ⟨h.once, hm.once, fun a ha b hb hab => ?_⟩
    have hlow := (h.opened a ha).2
    have hhigh := (hm.opened b hb).1
    omega
  · obtain ⟨front, hfront, hold⟩ := h.table
    obtain ⟨more, hmore, hnew⟩ := hm.table
    refine ⟨more ++ front.filter fun entry => decide (entry.1 ∉ (closings m.news).handles), ?_,
      fun entry hin => ?_⟩
    · rw [hmore, hfront, List.filter_append, h.filter_table hw hm hs, List.append_assoc]
    rw [openings_append, Held.handles_append]
    rcases List.mem_append.mp hin with hin | hin
    · exact ⟨List.mem_append_right _ (hnew entry hin), h.not_closed_of_opened hm hs (hnew entry hin)⟩
    · obtain ⟨hin, hc⟩ := List.mem_filter.mp hin
      refine ⟨List.mem_append_left _ (hold entry hin).1, fun hclosed => ?_⟩
      rw [closings_append, Held.handles_append] at hclosed
      exact (List.mem_append.mp hclosed).elim (hold entry hin).2 (by simpa using hc)

end

/-- The run lemma. -/
theorem along {moves : List Move} (hw : ∀ entry ∈ w.table, entry.1 < w.fresh) (h : w.Since news u)
    (hmoves : u.Along moves v) (told : ∀ m ∈ moves, m.Told) (hs : Sparing (news ++ newsOf moves)) :
    w.Since (news ++ newsOf moves) v ∧ ∀ m ∈ moves, w.table <:+ m.after.table := by
  induction hmoves generalizing news with
  | nil hd => exact ⟨by simpa [newsOf] using h.drifts hd, by simp⟩
  | @cons _ _ m moves hd _ ih =>
    have hnews : news ++ newsOf (m :: moves) = (news ++ m.news) ++ newsOf moves := by simp [newsOf]
    rw [hnews] at hs ⊢
    have hm := (h.drifts hd).move hw (told m List.mem_cons_self) hs.of_append
    obtain ⟨hafter, hrest⟩ := ih hm (fun m hm => told m (List.mem_cons_of_mem _ hm)) hs
    refine ⟨hafter, fun m' hm' => ?_⟩
    rcases List.mem_cons.mp hm' with rfl | hm'
    · obtain ⟨front, hfront, -⟩ := hm.table
      exact ⟨front, hfront.symm⟩
    · exact hrest m' hm'

/-- If everything was closed again, the table is what it was. -/
theorem table_eq (h : w.Since news v) (hc : (openings news).Perm (closings news)) :
    v.table = w.table := by
  obtain ⟨front, hfront, hopen⟩ := h.table
  have hnone : front = [] := by
    refine List.eq_nil_iff_forall_not_mem.mpr fun entry hm => ?_
    obtain ⟨hopened, hclosed⟩ := hopen entry hm
    exact hclosed ((hc.map Prod.snd).mem_iff.mp hopened)
  rw [hfront, hnone, List.nil_append]

end World.Since

/-- Both sides of a pipe may do their work in any order, and what the system refuses is up to the worlds
that the moves find. The files open afterwards are those open before, and these stay open all the time.
What is opened is closed once, for the node that it was opened for, and no command at that node or below
it is running then. The run of `execute` is among those that this is about. -/
theorem Executor.execute_leaks_no_file (ex : Executor) (t : Tree) (streams : Streams) (s : Running)
    (hs : ∀ entry ∈ s.world.table, entry.1 < s.world.fresh) :
    (∀ moves status there after, Concurrent.execute ex t streams s.here moves status there →
      s.world.Along moves after →
      let news := newsOf moves
      after.table = s.world.table ∧
        (∀ m ∈ moves, s.world.table <:+ m.after.table) ∧
        after.history = s.world.history ++ news.map News.happening ∧
        (closings news).Perm (openings news) ∧ (openings news).handles.Nodup ∧
        (∀ entry ∈ s.world.table, entry.1 ∉ (openings news).handles) ∧
        (∀ before p h rest, news = before ++ ⟨p, .closed h⟩ :: rest →
          (p, h) ∈ openings before ∧ AllEnded p before) ∧
        AllEnded [] news) ∧
      let last := (ex.execute t streams).run s
      ∃ moves, Concurrent.execute ex t streams s.here moves last.1 last.2.here ∧
        s.world.Along moves last.2.world := by
  refine ⟨fun moves status there after hrun halong => ?_, ex.realizes_execute t streams s⟩
  have hkeeps := (ex.tidy_execute t streams).of_run hrun
  have hsparing : Sparing ([] ++ newsOf moves) := fun before p h rest he =>
    (hkeeps.closing before p h rest he).1
  have hfiles : (openings (newsOf moves)).Perm (closings (newsOf moves)) := by
    simpa using hkeeps.files
  obtain ⟨hsince, hkept⟩ :=
    (World.Since.refl s.world).along hs halong ((ex.told_execute t streams).of_mem hrun) hsparing
  rw [List.nil_append] at hsince
  refine ⟨hsince.table_eq hfiles, hkept, hsince.history, hfiles.symm, hsince.once, ?_,
    hkeeps.closing, hkeeps.ended⟩
  intro entry hm hopened
  have hlow := hs entry hm
  have hhigh := (hsince.opened _ hopened).1
  omega

/-- The moves of a command that runs a program which ends at once. The worlds are those that it finds
when it looks for the program, when it starts it, and when it hears of its end. -/
def Executor.runMoves (found started ended : World) : List Move :=
  let number := started.started + 1
  let last := ended.tell (.ended number)
  [⟨[], 0, found, found, []⟩, ⟨[], 0, started, started.begin, [⟨[], .began number⟩]⟩,
    ⟨[.left], 0, started.begin, started.begin, []⟩, ⟨[], 0, ended, last, [⟨[], .ended number⟩]⟩,
    ⟨[], 0, last, last, []⟩]

open Behaviour in
theorem Executor.runs_of_exit (programs : Programs) {name path : Bytes} {args : List Bytes}
    {here : Surroundings} {found started : World} {invocation : Invocation} (code : UInt8)
    (hname : Builtin.ofName? name = none)
    (hlookup : Search.lookup found.disk here.env here.dir name = .ok path)
    (hprepare : Launch.prepare started.disk here.dir path (name :: args) here.env.listing =
      .ok invocation)
    (hprogram : programs invocation = .exit code) (streams : Streams) (ended : World) :
    let ex : Executor := { name := [], recorder := .silent, programs }
    Concurrent.plain ex (name :: args) {} streams here (runMoves found started ended) code.toNat
      here := by
  intro ex
  have hlook : look (fun w => Search.lookup w.disk here.env here.dir name) here
      [⟨[], 0, found, found, []⟩] (.ok path) here := ⟨0, found, rfl, hlookup.symm, rfl⟩
  have hlaunch : Concurrent.launch ex path (name :: args) here here
      [⟨[], 0, started, started.begin, [⟨[], .began (started.started + 1)⟩]⟩]
      (.started (started.started + 1) invocation) here := by
    refine ⟨0, started, ?_, ?_, rfl⟩ <;> simp only [hprepare] <;> rfl
  have hrecord (e : Event) (w : World) : Concurrent.record ex e here [⟨[], 0, w, w, []⟩] () here :=
    ⟨0, w, rfl, rfl, rfl⟩
  have hboth (e : Event) : both (Concurrent.record ex e)
      ((ex.programs invocation).behaviour streams invocation.dir) here
      [⟨[.left], 0, started.begin, started.begin, []⟩] ((), .exited code) here := by
    refine ⟨rfl, _, [], ⟨here.fork, _, ⟨0, started.begin, rfl, rfl, rfl⟩, rfl⟩, ⟨here.fork, [], ?_, rfl⟩,
      .left _ .nil⟩
    change (programs invocation).behaviour streams invocation.dir here.fork [] (.exited code) here.fork
    rw [hprogram]
    exact ⟨rfl, rfl, rfl⟩
  have hend : Concurrent.hearEnd (started.started + 1) here
      [⟨[], 0, ended, ended.tell (.ended (started.started + 1)),
        [⟨[], .ended (started.started + 1)⟩]⟩] () here := ⟨0, ended, rfl, rfl, rfl⟩
  have hhere : surroundings here [] here here := ⟨rfl, rfl, rfl⟩
  have hspawn : Concurrent.spawn ex streams (name :: args) here (runMoves found started ended)
      code.toNat here :=
    run_bind hhere (run_bind hlook (run_bind hlaunch (run_bind (hboth _) (run_bind hend
      (run_bind (hrecord _ _) (run_pure _ _))))))
  have hopen : Concurrent.openTargets ex (name :: args) (targets {}) streams [] here []
      (some (streams, [])) here := run_pure _ _
  have hclose : Concurrent.closeAll [] here [] () here := run_pure _ _
  rw [Concurrent.plain, hname]
  exact run_bind hopen (run_bind hspawn (run_bind hclose (run_pure _ _)))

/-- Both sides of a pipe have begun before either of them ends, and the left side closes its end while
the right one is still running. -/
theorem Executor.execute_leaks_no_file_overlapping :
    let ex : Executor := { name := [], recorder := .silent, programs := fun _ => .exit 0 }
    let program : Tree := .node .plain ["/bin/true"] {} .absent .absent
    let s : Running := ⟨⟨"/", .empty⟩, Sandbox.start (Sandbox.disk []) []⟩
    let told : List News := [⟨[.right], .opened 4⟩, ⟨[.left], .opened 5⟩, ⟨[.left], .began 1⟩,
      ⟨[.right], .began 2⟩, ⟨[.left], .ended 1⟩, ⟨[.left], .closed 5⟩, ⟨[.right], .ended 2⟩,
      ⟨[.right], .closed 4⟩]
    ∃ moves after, Concurrent.execute ex (.node .pipe [] {} program program) Sandbox.streams s.here moves
      0 s.here ∧ s.world.Along moves after ∧ newsOf moves = told ∧ after.table = s.world.table := by
  intro ex program s told
  let opened := (s.world.openPipe none).2
  let first := opened.begin
  let second := first.begin
  let closed := (second.tell (.ended 1)).close 5
  let after := (closed.tell (.ended 2)).close 4
  have hruns (found started ended : World) (hf : found.disk = s.world.disk)
      (hs : started.disk = s.world.disk) (streams : Streams) :
      Concurrent.execute ex program streams s.here.fork (runMoves found started ended) 0 s.here.fork := by
    have hlookup : Search.lookup s.world.disk s.here.fork.env s.here.fork.dir "/bin/true" =
        .ok "/bin/true" := by cbv
    have hprepare : Launch.prepare s.world.disk s.here.fork.dir "/bin/true" ["/bin/true"]
        s.here.fork.env.listing = .ok ⟨["/bin/true"], [], []⟩ := by cbv
    exact runs_of_exit ex.programs 0 rfl (hf ▸ hlookup) (hs ▸ hprepare) rfl streams ended
  have hleft := run_side (hruns opened opened second rfl rfl ⟨0, 5, 2⟩) 5 (second.tell (.ended 1))
  have hright := run_side (hruns first first closed rfl rfl ⟨4, 1, 2⟩) 4 (closed.tell (.ended 2))
  have hboth := Behaviour.run_both hleft hright
    (.left _ (.left _ (.left _ (.right _ (.right _ (.right _ (.left _ (.left _ (.left _ (.right _
      (.right _ (.right _ .nil))))))))))))
  have hopen : Concurrent.openPipe s.here
      [⟨[], 0, s.world, opened, [⟨[.right], .opened 4⟩, ⟨[.left], .opened 5⟩]⟩] (some ⟨3, 4, 5⟩) s.here :=
    ⟨0, s.world, rfl, rfl, rfl⟩
  have hdrop : Behaviour.change (fun w => ((), w.dropPipe 3)) s.here
      [⟨[], 0, after, after.dropPipe 3, []⟩] () s.here := ⟨0, after, rfl, rfl, rfl⟩
  obtain ⟨moves, hrun, halong, hnews⟩ : ∃ moves, Concurrent.execute ex (.node .pipe [] {} program program)
      Sandbox.streams s.here moves 0 s.here ∧ s.world.Along moves (after.dropPipe 3) ∧
      newsOf moves = told :=
    ⟨_, Behaviour.run_bind hopen (Behaviour.run_bind hboth (Behaviour.run_bind hdrop
        (Behaviour.run_pure (0 : Status) _))),
      .cons (.refl _) (.cons (.refl _) (.cons (.refl _) (.cons (.refl _) (.cons (.refl _) (.cons (.refl _)
      (.cons (.refl _) (.cons (.refl _) (.cons (.refl _) (.cons (.refl _) (.cons (.refl _) (.cons (.refl _)
      (.cons (.refl _) (.cons (.refl _) (.nil (.refl _))))))))))))))), rfl⟩
  exact ⟨moves, _, hrun, halong, hnews,
    ((execute_leaks_no_file ex _ _ s (by decide)).1 _ _ _ _ hrun halong).1⟩

end CommandShell
