import CommandShell.Proofs.EventAccount
import CommandShell.Proofs.SettledRun
import CommandShell.Proofs.WorkingDirectory
import Mathlib

/-! Redirections are exact. The targets of a command or a group are opened one after the other, and
either all of them open and take the places of the standard streams, or the first that is refused is
all that is heard of the command. -/
namespace CommandShell

namespace Disk
variable {d d' : Disk} {access : Access} {cwd : Place} {path : Bytes} {stream : Stream} {id : Nat}

/-- What is written goes to the end. -/
def Access.appends : Access → Bool
  | .extend _ => true
  | _ => false

/-- What opening a file may do to a disk: nothing, dropping what a file held, or making an empty file
in a free place. -/
inductive Prepares (path : Bytes) : Access → Disk → Disk → Prop
  | nothing (access : Access) (d : Disk) : Prepares path access d d
  | truncation (mode : Nat) {d : Disk} {place : Place} {m id : Nat}
      (found : d.find true [] path = .ok (.item place (.file m id))) :
      Prepares path (.replace mode) d (d.setContent id [])
  | creation {access : Access} {mode : Nat} (writes : access = .replace mode ∨ access = .extend mode)
      {d : Disk} {place : Place} (found : d.find true [] path = .ok (.free place)) :
      Prepares path access d (d.putFile place mode [])

theorem openItem_eq_ok {item : Item} (h : d.openItem access item = .ok (stream, d')) :
    d' = d ∨ ∃ mode m id, access = .replace mode ∧ item = .file m id ∧ d' = d.setContent id [] := by
  cases item with
  | directory mode =>
    cases access <;> cases h
    exact .inl rfl
  | file m id =>
    cases access with
    | read | extend mode =>
      cases h
      exact .inl rfl
    | replace mode =>
      cases h
      exact .inr ⟨mode, m, id, rfl, rfl, rfl⟩
  | link target => cases h
  | null =>
    cases h
    exact .inl rfl

theorem prepares_openItem {place : Place} {item : Item}
    (found : d.find true [] path = .ok (.item place item))
    (h : d.openItem access item = .ok (stream, d')) : Prepares path access d d' := by
  obtain rfl | ⟨mode, m, id, rfl, rfl, rfl⟩ := openItem_eq_ok h
  · exact .nothing ..
  · exact .truncation mode found

theorem prepares_openPath (h : d.openPath access [] path = .ok (stream, d')) :
    Prepares path access d d' := by
  cases access with
  | read =>
    simp only [openPath] at h
    split at h
    · cases h
    · obtain rfl | ⟨mode, m, id, he, -, -⟩ := openItem_eq_ok h
      · exact .nothing ..
      · cases he
  | replace mode | extend mode =>
    simp only [openPath] at h
    split at h
    · split at h <;> cases h
    · split at h
      · cases h
      · next found => exact prepares_openItem found h
      · next found =>
        cases h
        exact .creation (by simp) found

@[simp] theorem content_setContent_nil (d : Disk) (id : Nat) :
    (d.setContent id []).content id = [] := by
  simp only [content, setContent, List.getD_eq_getElem?_getD, List.getElem?_set]
  grind

@[simp] theorem content_putFile_nil (d : Disk) (place : Place) (mode id : Nat) :
    (d.putFile place mode []).content id = d.content id := by
  simp only [putFile, addContent, put, erase, content, List.getD_eq_getElem?_getD,
    List.getElem?_append]
  grind

/-- What is empty stays empty. -/
theorem Prepares.content_eq_nil (h : Prepares path access d d') (hd : d.content id = []) :
    d'.content id = [] := by
  cases h with
  | nothing => exact hd
  | @truncation mode _ place m other found =>
    by_cases he : id = other
    · rw [he, content_setContent_nil]
    · rw [content_setContent_of_ne _ _ he, hd]
  | creation writes found => rw [content_putFile_nil, hd]

/-- What is opened to be replaced is empty. -/
theorem content_of_openPath_replace {mode : Nat}
    (h : d.openPath (.replace mode) cwd path = .ok (.content id, d')) : d'.content id = [] := by
  simp only [openPath] at h
  split at h
  · split at h <;> cases h
  · split at h
    · cases h
    · next item _ =>
      cases item with
      | directory m => simp [openItem] at h
      | file m other =>
        cases h
        exact content_setContent_nil d id
      | link | null => cases h
    · cases h
      rw [content_putFile_nil]
      simp [content]

end Disk

namespace World
variable {w w' : World} {access : Disk.Access} {cwd : Place} {path : Bytes}

theorem openPath_eq_ok {handle : Nat} (h : w.openPath access cwd path = (.ok handle, w')) :
    ∃ stream, w.disk.openPath access cwd path = .ok (stream, w'.disk) ∧ handle = w.fresh ∧
      w'.fresh = w.fresh + 1 ∧
      w'.files = (handle, { source := .disk stream, append := access.appends }) :: w.files := by
  unfold openPath at h
  simp only at h
  split at h
  · cases h
  · split at h
    · cases h
    · next stream disk leads =>
      cases h
      refine ⟨stream, leads, rfl, rfl, ?_⟩
      cases access <;> rfl

theorem openPath_eq_error {e : PathError} (h : w.openPath access cwd path = (.error e, w')) :
    w' = { w with outages := w.outages.tail } := by
  unfold openPath at h
  simp only at h
  split at h
  · cases h
    rfl
  · split at h
    · cases h
      rfl
    · cases h

theorem content_print {handle id : Nat} (h : w.source? handle ≠ some (.disk (.content id)))
    (text : Bytes) : (w.print handle text).disk.content id = w.disk.content id := by
  obtain hd | ⟨other, data, ho, hd⟩ := w.disk_write handle text
  · rw [print, hd]
  · rw [print, hd]
    refine Disk.content_setContent_of_ne _ _ ?_
    rintro rfl
    exact h ho

theorem items_print (w : World) (handle : Nat) (text : Bytes) :
    (w.print handle text).disk.items = w.disk.items := by
  obtain hd | ⟨other, data, -, hd⟩ := w.disk_write handle text
  · rw [print, hd]
  · rw [print, hd]
    rfl

@[simp] theorem disk_foldl_close (handles : List Nat) (w : World) :
    (handles.foldl close w).disk = w.disk := by
  induction handles generalizing w with
  | nil => rfl
  | cons h handles ih => exact ih (w.close h)

end World

namespace Executor

/-- An open file with what it gives access to. -/
structure Grant where
  handle : Nat
  stream : Disk.Stream

/-- Targets open one after the other, as seen from a directory, each in the world that those before
it left. -/
inductive Opens (dir : Bytes) : World → List Target → List Grant → World → Prop
  | none (w : World) : Opens dir w [] [] w
  | more {w opened after : World} {target : Target} {rest : List Target} {grant : Grant}
      {grants : List Grant}
      (first : w.openPath target.access [] (Path.resolve dir target.path) =
        (.ok grant.handle, opened))
      (leads : w.disk.openPath target.access [] (Path.resolve dir target.path) =
        .ok (grant.stream, opened.disk))
      (others : Opens dir opened rest grants after) :
      Opens dir w (target :: rest) (grant :: grants) after

/-- What opening targets may do to a disk, one after the other. -/
inductive Prepared (dir : Bytes) : List Target → Disk → Disk → Prop
  | none (d : Disk) : Prepared dir [] d d
  | more {target : Target} {rest : List Target} {d d' d'' : Disk}
      (first : Disk.Prepares (Path.resolve dir target.path) target.access d d')
      (others : Prepared dir rest d' d'') : Prepared dir (target :: rest) d d''

/-- What a target was opened for is there, and empty if it was to be replaced. -/
structure Grant.Ready (grant : Grant) (access : Disk.Access) (w : World) : Prop where
  file : w.file? grant.handle =
    some { source := .disk grant.stream, append := access.appends }
  dropped : ∀ mode, access = .replace mode → ∀ id, grant.stream = .content id →
    w.disk.content id = []

namespace Opens
variable {dir : Bytes} {w after : World} {list rest : List Target} {target : Target}
  {grants : List Grant} {grant : Grant}

theorem opened (h : Opens dir w list grants after) :
    w.Opened after (grants.map Grant.handle) := by
  induction h with
  | none w => exact (World.Quiet.refl w).opened
  | more first _ _ ih => exact (World.opened_openPath first).trans ih

theorem prepared (h : Opens dir w list grants after) : Prepared dir list w.disk after.disk := by
  induction h with
  | none w => exact .none _
  | more _ leads _ ih => exact .more (Disk.prepares_openPath leads) ih

theorem events_eq (h : Opens dir w list grants after) : after.events = w.events := by
  induction h with
  | none w => rfl
  | more first _ _ ih => exact ih.trans (World.events_openPath _ first)

/-- What is open stays open, and what is empty stays empty. -/
theorem ready_of_ready {access : Disk.Access} (h : Opens dir w list grants after)
    (hn : grant.handle < w.fresh) (ready : grant.Ready access w) : grant.Ready access after := by
  induction h with
  | none w => exact ready
  | @more w opened after target rest other grants first leads others ih =>
    obtain ⟨stream, -, hh, hf, hfiles⟩ := World.openPath_eq_ok first
    refine ih (by omega) ⟨?_, ?_⟩
    · have hne : (other.handle == grant.handle) = false := beq_false_of_ne (by omega)
      rw [← ready.file]
      simp only [World.file?, hfiles, List.find?_cons, hne]
    · intro mode ha id hs
      exact (Disk.prepares_openPath leads).content_eq_nil (ready.dropped mode ha id hs)

/-- Every target that was opened is ready when the last one has been opened. -/
theorem ready (h : Opens dir w list grants after) :
    List.Forall₂ (fun target grant => grant.Ready target.access after) list grants := by
  induction h with
  | none w => exact .nil
  | @more w opened after target rest grant grants first leads others ih =>
    obtain ⟨stream, leads', hh, hf, hfiles⟩ := World.openPath_eq_ok first
    obtain rfl : grant.stream = stream := by simpa [leads] using leads'
    refine .cons (others.ready_of_ready (by omega) ⟨?_, ?_⟩) ih
    · simp [World.file?, hfiles]
    · intro mode ha id hs
      rw [ha, hs] at leads
      exact Disk.content_of_openPath_replace leads

end Opens

/-- The streams after targets have taken their places. -/
def handOver : List Target → List Grant → Streams → Streams
  | target :: rest, grant :: grants, streams =>
    handOver rest grants (target.slot.set streams grant.handle)
  | _, _, streams => streams

/-- Targets for other streams leave the error stream where it was. -/
theorem error_handOver {list : List Target} (h : ∀ target ∈ list, target.slot ≠ .error)
    (grants : List Grant) (streams : Streams) :
    (handOver list grants streams).error = streams.error := by
  induction list generalizing grants streams with
  | nil => rfl
  | cons target rest ih =>
    obtain ⟨hfirst, hrest⟩ := List.forall_mem_cons.mp h
    cases grants with
    | nil => rfl
    | cons grant grants =>
      rw [handOver, ih hrest]
      cases hslot : target.slot with
      | input | output => rfl
      | error => exact absurd hslot hfirst

section
variable {ex : Executor} {argv : List Bytes} {streams : Streams} {s : Running}
  {list rest : List Target} {grants : List Grant} {after : World}

/-- The targets in front of the others are opened. -/
theorem run_openTargets_opens (h : Opens s.here.dir s.world list grants after) (opened : List Nat) :
    (ex.openTargets argv (list ++ rest) streams opened).run s =
      (ex.openTargets argv rest (handOver list grants streams)
        (opened ++ grants.map Grant.handle)).run { s with world := after } := by
  obtain ⟨here, world⟩ := s
  simp only at h
  induction h generalizing streams opened with
  | none w => simp [handOver]
  | more first leads others ih =>
    rw [List.cons_append, run_openTargets_ok first, ih, handOver, List.map_cons,
      List.append_assoc, List.singleton_append]

end

/-- Targets open up to the first that is refused. -/
theorem opens_or_refused (dir : Bytes) (w : World) (list : List Target) :
    (∃ grants after, Opens dir w list grants after) ∨
      ∃ before failing rest grants opened e refused, list = before ++ failing :: rest ∧
        Opens dir w before grants opened ∧
        opened.openPath failing.access [] (Path.resolve dir failing.path) = (.error e, refused) := by
  induction list generalizing w with
  | nil => exact .inl ⟨[], w, .none w⟩
  | cons target rest ih =>
    rcases ho : w.openPath target.access [] (Path.resolve dir target.path) with ⟨e | handle, world⟩
    · exact .inr ⟨[], target, rest, [], w, e, world, rfl, .none w, ho⟩
    · obtain ⟨stream, leads, -⟩ := World.openPath_eq_ok ho
      obtain ⟨grants, after, others⟩ |
        ⟨before, failing, more, grants, opened, e, refused, rfl, others, hr⟩ := ih world
      · exact .inl ⟨⟨handle, stream⟩ :: grants, after, .more ho leads others⟩
      · exact .inr ⟨target :: before, failing, more, ⟨handle, stream⟩ :: grants, opened, e, refused,
          rfl, .more ho leads others, hr⟩

/-! ### The four targets -/

/-- A target, if it is set. -/
def optional (target : Target) : List Target := if target.path.isEmpty then [] else [target]

theorem targets_eq (files : Redirections) :
    targets files =
      optional ⟨.input, files.input, .read, "input"⟩ ++
        (optional ⟨.output, files.output, .replace 0o644, "output"⟩ ++
          (optional ⟨.output, files.append, .extend 0o644, "output"⟩ ++
            (optional ⟨.error, files.error, .replace 0o644, "error"⟩ ++ []))) := by
  have step (target : Target) (rest : List Target) :
      (target :: rest).filter (!·.path.isEmpty) =
        optional target ++ rest.filter (!·.path.isEmpty) := by
    cases hp : target.path.isEmpty <;> simp [optional, hp]
  rw [targets, step, step, step, step, List.filter_nil]

section
variable {target : Target} {rest : List Target} {grant : Option Grant} {grants : List Grant}

theorem Opens.of_optional {dir : Bytes} {w after : World}
    (h : Opens dir w (optional target ++ rest) grants after) :
    ∃ (grant : Option Grant) (more : List Grant) (middle : World),
      grant.isSome = !target.path.isEmpty ∧ grants = grant.toList ++ more ∧
      Opens dir middle rest more after := by
  rw [optional] at h
  split at h
  · next hp => exact ⟨Option.none, grants, w, by simp [hp], rfl, h⟩
  · next hp =>
    cases h with
    | @more _ opened _ _ _ grant grants first leads others =>
      exact ⟨some grant, grants, opened, by simp [hp], rfl, others⟩

theorem handOver_optional (h : grant.isSome = !target.path.isEmpty) (streams : Streams) :
    handOver (optional target ++ rest) (grant.toList ++ grants) streams =
      handOver rest grants
        ((grant.map fun grant => target.slot.set streams grant.handle).getD streams) := by
  cases grant <;> cases hp : target.path.isEmpty <;> simp_all [optional, handOver]

theorem forall₂_optional {R : Target → Grant → Prop} (h : grant.isSome = !target.path.isEmpty)
    (hR : List.Forall₂ R (optional target ++ rest) (grant.toList ++ grants)) :
    (∀ one ∈ grant, R target one) ∧ List.Forall₂ R rest grants := by
  cases grant <;> cases hp : target.path.isEmpty <;> simp_all [optional]

end

/-- The open files for the targets of a node. -/
structure Grants where
  input : Option Grant
  output : Option Grant
  append : Option Grant
  error : Option Grant

namespace Grants

/-- In the order in which they are opened. -/
def list (g : Grants) : List Grant :=
  g.input.toList ++ (g.output.toList ++ (g.append.toList ++ (g.error.toList ++ [])))

/-- There is a file for every target that is set, and no other. -/
structure Fits (g : Grants) (files : Redirections) : Prop where
  input : g.input.isSome = !files.input.isEmpty
  output : g.output.isSome = !files.output.isEmpty
  append : g.append.isSome = !files.append.isEmpty
  error : g.error.isSome = !files.error.isEmpty

/-- What a command is given for its standard streams. -/
def streams (g : Grants) (outer : Streams) : Streams where
  input := (g.input.map Grant.handle).getD outer.input
  output := ((g.append.or g.output).map Grant.handle).getD outer.output
  error := (g.error.map Grant.handle).getD outer.error

/-- All files give access to what they were opened for, and those to be replaced are empty. -/
structure Ready (g : Grants) (w : World) : Prop where
  input : ∀ grant ∈ g.input, grant.Ready .read w
  output : ∀ grant ∈ g.output, grant.Ready (.replace 0o644) w
  append : ∀ grant ∈ g.append, grant.Ready (.extend 0o644) w
  error : ∀ grant ∈ g.error, grant.Ready (.replace 0o644) w

variable {g : Grants} {files : Redirections} {dir : Bytes} {w after : World}

theorem exists_of_opens {grants : List Grant} (h : Opens dir w (targets files) grants after) :
    ∃ g : Grants, g.Fits files ∧ grants = g.list := by
  rw [targets_eq] at h
  obtain ⟨input, _, _, hi, rfl, h₁⟩ := h.of_optional
  obtain ⟨output, _, _, ho, rfl, h₂⟩ := h₁.of_optional
  obtain ⟨append, _, _, ha, rfl, h₃⟩ := h₂.of_optional
  obtain ⟨error, _, _, he, rfl, h₄⟩ := h₃.of_optional
  cases h₄
  exact ⟨⟨input, output, append, error⟩, ⟨hi, ho, ha, he⟩, rfl⟩

namespace Fits

theorem handOver_eq (hg : g.Fits files) (outer : Streams) :
    handOver (targets files) g.list outer = g.streams outer := by
  obtain ⟨input, output, append, error⟩ := g
  rw [targets_eq, list, handOver_optional hg.input, handOver_optional hg.output,
    handOver_optional hg.append, handOver_optional hg.error, handOver]
  · cases input <;> cases output <;> cases append <;> cases error <;> rfl
  · simp

theorem ready (hg : g.Fits files) (h : Opens dir w (targets files) g.list after) :
    g.Ready after := by
  have all := h.ready
  rw [targets_eq, list] at all
  obtain ⟨input, all⟩ := forall₂_optional hg.input all
  obtain ⟨output, all⟩ := forall₂_optional hg.output all
  obtain ⟨append, all⟩ := forall₂_optional hg.append all
  obtain ⟨error, -⟩ := forall₂_optional hg.error all
  exact ⟨input, output, append, error⟩

end Fits

end Grants

/-! ### Commands and groups -/

/-- The nodes to which redirections apply, with the words they are reported by and what is done once
their targets are open. -/
inductive Redirects (ex : Executor) :
    Tree → List Bytes → Redirections → (Streams → Run Status) → Prop
  | command {name : Bytes} (external : Builtin.ofName? name = none) (args : List Bytes)
      (files : Redirections) (l r : Tree) :
      Redirects ex (.node .plain (name :: args) files l r) (name :: args) files
        fun inner => ex.spawn inner (name :: args)
  | group (argv : List Bytes) (files : Redirections) (l r : Tree) :
      Redirects ex (.node .subshell argv files l r) argv files fun inner => do
        let status ← ex.execute l inner
        return if ex.policy == .propagate then status else Status.success

/-- The event of a target that is refused. -/
def refusal (argv : List Bytes) (dir : Bytes) (target : Target) (e : PathError) : RedirectFailure where
  command := if argv.isEmpty then Option.none else some argv
  path := target.path
  error := "open " ++ Path.resolve dir target.path ++ ": " ++ e.message

/-- What is left of a node when a target is refused: a diagnostic on the standard error around it and
one event, and of the targets that opened before, what opening them did to the disk. -/
structure TargetRefused (ex : Executor) (argv : List Bytes) (streams : Streams) (s : Running)
    (before : List Target) (grants : List Grant) (opened : World) (failing : Target) (e : PathError)
    (result : Status × Running) : Prop where
  status : result.1 = 255
  here : result.2.here = s.here
  /-- The diagnostic is written, the event is recorded, and the files are closed. -/
  world :
    let event := refusal argv s.here.dir failing e
    let text := "error opening " ++ failing.title ++ " file: " ++ event.error
    let told := { opened with outages := opened.outages.tail }.print streams.error
      (ex.title ++ ": " ++ text ++ "\n")
    result.2.world = (grants.map Grant.handle).foldl World.close
      (ex.recorder.record "event" (.redirectFailure event) told)
  /-- Files were opened and closed, and no program began. -/
  history : result.2.world.history = s.world.history ++
    (grants.map Grant.handle).map .opened ++ (grants.map Grant.handle).map .closed
  event : ex.recorder = .memory → result.2.world.events =
    s.world.events ++ [.redirectFailure (refusal argv s.here.dir failing e)]
  outside : streams.error < s.world.fresh → ∀ grant ∈ grants, grant.handle ≠ streams.error
  prepared : Prepared s.here.dir before s.world.disk opened.disk
  names : result.2.world.disk.items = opened.disk.items
  contents : ∀ id, opened.source? streams.error ≠ some (.disk (.content id)) →
    (∀ handle session, ex.recorder = .file handle session →
      opened.source? handle ≠ some (.disk (.content id))) →
    result.2.world.disk.content id = opened.disk.content id

theorem Redirects.run_eq {ex : Executor} {t : Tree} {argv : List Bytes} {files : Redirections}
    {body : Streams → Run Status} (ht : Redirects ex t argv files body) (streams : Streams)
    (s : Running) :
    (ex.execute t streams).run s = (ex.redirected argv files streams body).run s := by
  cases ht with
  | command external args files l r =>
    rw [execute, run_plain_cons, external]
  | group argv files l r => rfl

section
variable {ex : Executor} {argv : List Bytes} {files : Redirections} {streams : Streams} {s : Running}

/-- Recording changes no content but that of a log. -/
theorem content_record {r : Recorder} {subject : Bytes} {e : Event} {w : World} {id : Nat}
    (h : ∀ handle session, r = .file handle session →
      w.source? handle ≠ some (.disk (.content id))) :
    (r.record subject e w).disk.content id = w.disk.content id := by
  cases r with
  | silent | broken | memory => rfl
  | file handle session => exact World.content_print (h handle session rfl) _

/-- What remains when a failure is told and recorded and the files are closed. -/
theorem reported (r : Recorder) (w : World) (out : Nat) (text : Bytes) (e : Event)
    (handles : List Nat) :
    let after := handles.foldl World.close (r.record "event" e (w.print out text))
    after.history = w.history ++ handles.map .closed ∧
      (r = .memory → after.events = w.events ++ [e]) ∧
      after.disk.items = w.disk.items ∧
      ∀ id, w.source? out ≠ some (.disk (.content id)) →
        (∀ handle session, r = .file handle session →
          w.source? handle ≠ some (.disk (.content id))) →
        after.disk.content id = w.disk.content id := by
  refine ⟨?_, ?_, ?_, ?_⟩
  · rw [(World.foldl_close _ _).1, (World.quiet_record ..).history, (World.quiet_print ..).history]
  · rintro rfl
    rw [World.events_foldl_close, Recorder.record, World.events_print]
  · rw [World.disk_foldl_close, items_record, World.items_print]
  · intro id hout hlog
    rw [World.disk_foldl_close, content_record, World.content_print hout]
    intro handle session hr
    rw [World.source?_of_table (World.quiet_print ..).table]
    exact hlog handle session hr

theorem targetRefused_of_opens {body : Streams → Run Status} {before rest : List Target}
    {failing : Target} {grants : List Grant} {opened refused : World} {e : PathError}
    (hl : targets files = before ++ failing :: rest)
    (h : Opens s.here.dir s.world before grants opened)
    (hr : opened.openPath failing.access [] (Path.resolve s.here.dir failing.path) =
      (.error e, refused)) :
    TargetRefused ex argv streams s before grants opened failing e
      ((ex.redirected argv files streams body).run s) := by
  have hw := World.openPath_eq_error hr
  have herror := error_handOver (slot_ne_error_of_targets files hl) grants streams
  rw [run_redirected, hl, run_openTargets_opens h, run_openTargets_error hr, List.nil_append,
    ex.redirectionFailed_congr argv streams _ herror]
  subst hw
  let event := refusal argv s.here.dir failing e
  obtain ⟨history, recorded, names, contents⟩ := reported ex.recorder
    { opened with outages := opened.outages.tail } streams.error
    (ex.title ++ ": " ++ ("error opening " ++ failing.title ++ " file: " ++ event.error) ++ "\n")
    (.redirectFailure event) (grants.map Grant.handle)
  refine ⟨rfl, rfl, rfl, history.trans ?_, fun hm => (recorded hm).trans ?_, ?_, h.prepared, names,
    contents⟩
  · rw [h.opened.history]
  · rw [← h.events_eq]
  · rintro hs grant hg heq
    have := (h.opened.numbers grant.handle (List.mem_map_of_mem hg)).1
    omega

theorem run_redirected_of_opens {body : Streams → Run Status} {g : Grants} {opened : World}
    (hg : g.Fits files) (h : Opens s.here.dir s.world (targets files) g.list opened) :
    (ex.redirected argv files streams body).run s =
      let after := (body (g.streams streams)).run { s with world := opened }
      (after.1,
        { after.2 with world := (g.list.map Grant.handle).foldl World.close after.2.world }) := by
  have ho : (ex.openTargets argv (targets files ++ []) streams []).run s =
      (ex.openTargets argv [] (handOver (targets files) g.list streams)
        ([] ++ g.list.map Grant.handle)).run { s with world := opened } :=
    run_openTargets_opens h []
  rw [List.append_nil, List.nil_append, hg.handOver_eq] at ho
  rw [run_redirected, ho]
  rfl

end

/-- Redirections are exact. Either every target opens, or some first one is refused. If a target is
refused, the status is that of a failed redirection, one diagnostic and one event tell of it, and
nothing else is done. If all targets open, what is run is given their files for its standard streams,
that for appending in place of that for output, and the files to be replaced are empty by then. -/
theorem redirections_are_exact {ex : Executor} {t : Tree} {argv : List Bytes} {files : Redirections}
    {body : Streams → Run Status} (ht : Redirects ex t argv files body) (streams : Streams)
    (s : Running) :
    ((∃ (g : Grants) (opened : World),
        g.Fits files ∧ Opens s.here.dir s.world (targets files) g.list opened) ∨
      ∃ before failing rest grants opened e refused, targets files = before ++ failing :: rest ∧
        Opens s.here.dir s.world before grants opened ∧
        opened.openPath failing.access [] (Path.resolve s.here.dir failing.path) =
          (.error e, refused)) ∧
    (∀ before failing rest grants opened e refused, targets files = before ++ failing :: rest →
      Opens s.here.dir s.world before grants opened →
      opened.openPath failing.access [] (Path.resolve s.here.dir failing.path) =
        (.error e, refused) →
      TargetRefused ex argv streams s before grants opened failing e
        ((ex.execute t streams).run s)) ∧
    ∀ (g : Grants) (opened : World), g.Fits files →
      Opens s.here.dir s.world (targets files) g.list opened →
      g.Ready opened ∧
      (ex.execute t streams).run s =
        let after := (body (g.streams streams)).run { s with world := opened }
        (after.1,
          { after.2 with world := (g.list.map Grant.handle).foldl World.close after.2.world }) := by
  refine ⟨?_, ?_, ?_⟩
  · obtain ⟨grants, opened, h⟩ | h := opens_or_refused s.here.dir s.world (targets files)
    · obtain ⟨g, hg, rfl⟩ := Grants.exists_of_opens h
      exact .inl ⟨g, opened, hg, h⟩
    · exact .inr h
  · intro before failing rest grants opened e refused hl h hr
    rw [ht.run_eq]
    exact targetRefused_of_opens hl h hr
  · intro g opened hg h
    exact ⟨hg.ready h, (ht.run_eq streams s).trans (run_redirected_of_opens hg h)⟩

private def shell : Executor := { name := "sh", programs := fun _ => .exit 0 }

/-- A disk with a file to read and one to write. -/
private def desk : Disk := (({} : Disk).putFile ["i"] 0o644 "in").putFile ["o"] 0o644 "old"

private def atDesk : Running := ⟨⟨"/", .empty⟩, Sandbox.start desk []⟩

/-- A command whose third target is in a directory that does not exist. -/
private def astray : Redirections := { input := "i", output := "o", append := "no/a", error := "e" }

private def doubled : Redirections := { output := "o", append := "a" }

private def writers : Grants := ⟨none, some ⟨3, .content 1⟩, some ⟨4, .content 5⟩, none⟩

private def worldOf (targets : List Target) : World :=
  targets.foldl (fun w target => (w.openPath target.access [] (Path.resolve "/" target.path)).2)
    atDesk.world

theorem redirections_are_exact_third :
    let ran (files : Redirections) :=
      (shell.execute (.plain ["p"] files) Sandbox.streams).run atDesk
    (ran astray).1 = 255 ∧
    (ran astray).2.world.events =
      [.redirectFailure (refusal ["p"] "/" ⟨.output, "no/a", .extend 0o644, "output"⟩ .missing)] ∧
    (ran astray).2.world.disk.items = (worldOf ((targets astray).take 2)).disk.items ∧
    writers.Ready (worldOf (targets doubled)) ∧
    (ran doubled).1 = ((shell.spawn ⟨0, 4, 2⟩ ["p"]).run
      ⟨⟨"/", .empty⟩, worldOf (targets doubled)⟩).1 := by
  have external : Builtin.ofName? "p" = Option.none := by decide
  have command (files : Redirections) :
      Redirects shell (.plain ["p"] files) ["p"] files fun streams => shell.spawn streams ["p"] :=
    .command external [] files .absent .absent
  obtain ⟨-, refused, -⟩ := redirections_are_exact (command astray) Sandbox.streams atDesk
  obtain ⟨-, -, opened⟩ := redirections_are_exact (command doubled) Sandbox.streams atDesk
  have two : Opens "/" atDesk.world ((targets astray).take 2) [⟨3, .content 0⟩, ⟨4, .content 1⟩]
      (worldOf ((targets astray).take 2)) :=
    .more (by cbv) (by cbv) (.more (by cbv) (by cbv) (.none _))
  have both : Opens "/" atDesk.world (targets doubled) writers.list (worldOf (targets doubled)) :=
    .more (by cbv) (by cbv) (.more (by cbv) (by cbv) (.none _))
  have failed := refused ((targets astray).take 2) ⟨.output, "no/a", .extend 0o644, "output"⟩
    [⟨.error, "e", .replace 0o644, "error"⟩] _ _ .missing _ rfl two (by cbv)
  obtain ⟨ready, ran⟩ := opened writers _ ⟨rfl, rfl, rfl, rfl⟩ both
  refine ⟨failed.status, failed.event rfl, failed.names, ready, ?_⟩
  have status := congrArg Prod.fst ran
  exact status

/-- A command without words is complained about before its targets are looked at. -/
theorem wordless_redirection_is_not_refused :
    let result := (shell.execute (.plain [] { output := "no/o" }) Sandbox.streams).run atDesk
    targets { output := "no/o" } = [⟨.output, "no/o", .replace 0o644, "output"⟩] ∧
    (∃ refused, atDesk.world.openPath (.replace 0o644) [] (Path.resolve "/" "no/o") =
      (.error .missing, refused)) ∧
    result.1 = Status.unknown ∧ result.1 ≠ 255 ∧ result.2.world.events = [] :=
  ⟨rfl, ⟨_, by cbv⟩, rfl, by decide, by cbv⟩

end Executor

end CommandShell
