import CommandShell.Proofs.OpenFiles
import CommandShell.Sandbox
import Mathlib

/-! The run of a tree settles: every thing that the executor does leaves the open files and the pipes as
they were, and what it opens in between gets new numbers. -/
namespace CommandShell
open World (Quiet Settled Opened Numbered)

namespace Executor
variable (ex : Executor) (argv : List Bytes) (files : Redirections) (streams : Streams)
  (s : Running)

theorem quiet_say (text : Bytes) : s.world.Quiet ((ex.say streams text).run s).2.world :=
  s.world.quiet_print ..

theorem quiet_event (e : Event) : s.world.Quiet ((ex.record e).run s).2.world :=
  s.world.quiet_record ..

theorem quiet_reportSide (side : Bytes) (status : Status) :
    s.world.Quiet ((ex.reportSide streams side status).run s).2.world := by
  rw [run_reportSide]
  split
  · exact ex.quiet_say ..
  · exact .refl _

theorem quiet_notStarted (subject reason : Bytes) (status : Status) :
    s.world.Quiet ((ex.notStarted streams argv subject reason status).run s).2.world :=
  (ex.quiet_say streams s _).trans (ex.quiet_event _ _)

theorem quiet_builtin (b : Builtin) :
    s.world.Quiet ((ex.builtin streams argv b).run s).2.world := by
  cases b with
  | cd =>
    rw [run_cd]
    split
    · next text here _ =>
      exact (s.world.quiet_print streams.output text).trans (ex.quiet_event { s with here, world := _ } _)
    · exact (ex.quiet_say streams s _).trans (ex.quiet_event _ _)

/-- A program that is started leaves its beginning and its end. -/
theorem settled_runProgram (path dir : Bytes) (invocation : Invocation) :
    s.world.Settled ((ex.runProgram streams argv path dir invocation).run s).2.world
      [.began (s.world.started + 1), .ended (s.world.started + 1)] := by
  have hn : s.world.Quiet { s.world with started := s.world.started + 1 } :=
    ⟨rfl, rfl, rfl, rfl, rfl⟩
  have hb : s.world.Settled s.world.begin [.began (s.world.started + 1)] := hn.settled.tell rfl
  rw [run_runProgram]
  dsimp only
  refine Settled.quiet ?_ (World.quiet_record ..)
  refine Settled.tell (s := [.began (s.world.started + 1)]) ?_ rfl
  refine Settled.quiet ?_ (World.quiet_run ..)
  exact hb.quiet (World.quiet_record ..)

theorem settled_spawn :
    ∃ trail, s.world.Settled ((ex.spawn streams argv).run s).2.world trail := by
  have failed (subject reason : Bytes) (status : Status) :=
    (ex.quiet_notStarted argv streams s subject reason status).settled
  rw [run_spawn]
  split
  · exact ⟨[], failed ..⟩
  · split
    · exact ⟨[], failed ..⟩
    · split
      · exact ⟨[], failed ..⟩
      · exact ⟨_, ex.settled_runProgram ..⟩

theorem redirectionFailed_closes (target : Target) (path : Bytes) (e : PathError)
    (opened : List Nat) :
    ∃ last, s.world.Quiet last ∧
      (ex.redirectionFailed argv streams s target path e opened).world =
        opened.foldl World.close last :=
  ⟨_, (ex.quiet_say streams s _).trans (ex.quiet_event _ _), rfl⟩

variable {argv streams s}

theorem openPath_cases (access : Disk.Access) (path : Bytes) :
    (∃ handle world, s.world.openPath access [] path = (.ok handle, world)) ∨
      ∃ e world, s.world.openPath access [] path = (.error e, world) := by
  obtain ⟨_ | _, world⟩ := s.world.openPath access [] path
  · exact .inr ⟨_, world, rfl⟩
  · exact .inl ⟨_, world, rfl⟩

section
variable {ex} {inner : Streams} {list : List Target} {opened handles : List Nat}
  {after : Running}

/-- Targets are opened one after the other. -/
theorem opened_of_openTargets_some
    (h : (ex.openTargets argv list streams opened).run s = (some (inner, handles), after)) :
    ∃ new, handles = opened ++ new ∧ s.world.Opened after.world new := by
  induction list generalizing streams s opened with
  | nil =>
    cases h
    exact ⟨[], by simp, (Quiet.refl _).opened⟩
  | cons target rest ih =>
    obtain ⟨handle, world, ho⟩ | ⟨e, world, ho⟩ := openPath_cases (s := s) target.access
      (Path.resolve s.here.dir target.path)
    · rw [run_openTargets_ok ho] at h
      obtain ⟨new, rfl, hnew⟩ := ih h
      exact ⟨handle :: new, by simp, (World.opened_openPath ho).trans hnew⟩
    · rw [run_openTargets_error ho] at h
      cases h

/-- If a target cannot be opened, those opened before are closed again. -/
theorem opened_of_openTargets_none
    (h : (ex.openTargets argv list streams opened).run s = (none, after)) :
    ∃ new last, s.world.Opened last new ∧
      after.world = (opened ++ new).foldl World.close last := by
  induction list generalizing streams s opened with
  | nil => cases h
  | cons target rest ih =>
    obtain ⟨handle, world, ho⟩ | ⟨e, world, ho⟩ := openPath_cases (s := s) target.access
      (Path.resolve s.here.dir target.path)
    · rw [run_openTargets_ok ho] at h
      obtain ⟨new, last, hnew, hafter⟩ := ih h
      refine ⟨handle :: new, last, (World.opened_openPath ho).trans hnew, ?_⟩
      simpa using hafter
    · rw [run_openTargets_error ho] at h
      cases h
      obtain ⟨last, hq, hafter⟩ := ex.redirectionFailed_closes argv streams { s with world } target
        (Path.resolve s.here.dir target.path) e opened
      refine ⟨[], last, ((World.quiet_openPath ho).trans hq).opened, ?_⟩
      rw [List.append_nil, hafter]

end

variable (argv streams) in
/-- The files of a redirection enclose what is done with them. -/
theorem settled_redirected (hs : s.world.Numbered) (body : Streams → Run Status)
    (hbody : ∀ (inner : Streams) (s : Running), s.world.Numbered →
      ∃ trail, s.world.Settled ((body inner).run s).2.world trail) :
    ∃ trail, s.world.Settled ((ex.redirected argv files streams body).run s).2.world trail := by
  rw [run_redirected]
  split
  · next after ho =>
    obtain ⟨new, last, hnew, hafter⟩ := opened_of_openTargets_none ho
    have he := hnew.enclose hs (Quiet.refl last).settled
    rw [List.nil_append] at hafter
    exact ⟨_, hafter ▸ he⟩
  · next inner opened after ho =>
    obtain ⟨new, hnil, hnew⟩ := opened_of_openTargets_some ho
    obtain rfl : opened = new := hnil
    obtain ⟨trail, htrail⟩ := hbody inner after (hs.opened hnew)
    exact ⟨_, hnew.enclose hs htrail⟩

theorem settled_plain (hs : s.world.Numbered) :
    ∃ trail, s.world.Settled ((ex.plain argv files streams).run s).2.world trail := by
  cases argv with
  | nil => exact ⟨[], (ex.quiet_say ..).settled⟩
  | cons name args =>
    rw [run_plain_cons]
    split
    · exact ⟨[], (ex.quiet_builtin ..).settled⟩
    · exact ex.settled_redirected (name :: args) files streams hs
        (fun inner => ex.spawn inner (name :: args))
        fun inner s _ => ex.settled_spawn (name :: args) inner s

/-- Both ends of a pipe are closed, each as soon as its side is done. -/
theorem settled_pipe {left right : Streams → Run Status} (hs : s.world.Numbered)
    (hl : ∀ (inner : Streams) (s : Running), s.world.Numbered →
      ∃ trail, s.world.Settled ((left inner).run s).2.world trail)
    (hr : ∀ (inner : Streams) (s : Running), s.world.Numbered →
      ∃ trail, s.world.Settled ((right inner).run s).2.world trail) :
    ∃ trail, s.world.Settled ((ex.pipe left right streams).run s).2.world trail := by
  rw [run_pipe, pipeResult, pipeWith]
  generalize pipeRoom streams s left right = room
  obtain ⟨ends, world, ho⟩ | ⟨world, ho⟩ : (∃ ends world, s.world.openPipe room = (some ends, world)) ∨
      ∃ world, s.world.openPipe room = (none, world) := by
    obtain ⟨_ | _, world⟩ := s.world.openPipe room
    · exact .inr ⟨world, rfl⟩
    · exact .inl ⟨_, world, rfl⟩
  · simp only [ho]
    have hw : world.Numbered := hs.openPipe ho
    obtain ⟨a, hleft⟩ := hl { streams with output := ends.write } ⟨s.here.fork, world⟩ hw
    have hm := ((hw.settled hleft).close ends.write).quiet (World.quiet_unbind _ ends.number)
    obtain ⟨b, hright⟩ := hr { streams with input := ends.read } ⟨s.here.fork, _⟩ hm
    exact ⟨_, Settled.pipe hs ho hleft hright⟩
  · simp only [ho]
    exact ⟨[], ((World.openPipe_none ho).trans (ex.quiet_say streams { s with world } _)).settled⟩

/-- The run lemma. -/
theorem execute_settled (t : Tree) (streams : Streams) (s : Running) (hs : s.world.Numbered) :
    ∃ trail, s.world.Settled ((ex.execute t streams).run s).2.world trail := by
  induction t generalizing streams s with
  | absent => exact ⟨[], (ex.quiet_say ..).settled⟩
  | node kind argv files l r ihl ihr =>
    cases kind with
    | plain => exact ex.settled_plain files hs
    | sequence =>
      rw [run_sequence]
      obtain ⟨a, hl⟩ := ihl streams s hs
      have hm := hl.quiet (ex.quiet_reportSide streams ((ex.execute l streams).run s).2 "left"
        ((ex.execute l streams).run s).1)
      obtain ⟨b, hr⟩ := ihr streams _ (hs.settled hm)
      exact ⟨_, (hm.trans hr).quiet (ex.quiet_reportSide ..)⟩
    | and | or =>
      simp only [run_and, run_or]
      obtain ⟨a, hl⟩ := ihl streams s hs
      split
      · exact ⟨a, hl⟩
      · obtain ⟨b, hr⟩ := ihr streams _ (hs.settled hl)
        exact ⟨_, hl.trans hr⟩
    | pipe => exact ex.settled_pipe hs ihl ihr
    | subshell =>
      rw [run_subshell]
      exact ex.settled_redirected argv files streams hs
        (fun inner => do
          let status ← ex.execute l inner
          return if ex.policy == .propagate then status else Status.success) ihl
    | unknown => exact ⟨[], (ex.quiet_say ..).settled⟩

end Executor

theorem Sandbox.numbered_addStream {w : World} (h : w.Numbered) (data : Bytes) :
    (addStream w data).Numbered :=
  (h.quiet (w.quiet_disk (w.disk.addContent data).2)).opened (World.opened_add _ (by simp))

theorem Sandbox.numbered_start (d : Disk) (input : Bytes) : (start d input).Numbered := by
  have h : World.Numbered { disk := d } := ⟨by simp [World.table], by simp [World.table],
    by simp [World.pipeNumbers]⟩
  exact numbered_addStream (numbered_addStream (numbered_addStream h input) []) []

end CommandShell
