import CommandShell.Proofs.HiddenStream

/-! Trees are blind to what is out of their reach. Other bytes behind an open file that no command holds
and no path leads to make no difference to a run, and the run makes none to the bytes. -/
namespace CommandShell

theorem World.within_dropPipe (w : World) (n : Nat) : w.Within (w.dropPipe n) where
  table := List.Subset.refl _
  pipes := List.map_subset _ (List.filter_subset_self ..)
  fresh := Nat.le_refl _
  clock := rfl

/-- The state with the other bytes. -/
def Swap.on (x : Swap) (s : Running) : Running := { s with world := x.apply s.world }

namespace Executor

/-- Something that does the same whatever bytes are out of its reach, and keeps them out of reach.
`held` are the open files that can be used. -/
def Blind {α : Type} (held : List Nat) (m : Run α) : Prop :=
  ∀ (x : Swap) (s : Running), x.Unseen s.world held →
    m.run (x.on s) = ((m.run s).1, x.on (m.run s).2) ∧ x.Unseen (m.run s).2.world held

namespace Blind
variable {α β : Type} {held : List Nat}

theorem pure (a : α) : Blind held (Pure.pure a) := fun _ _ h => ⟨rfl, h⟩

theorem bind {m : Run α} {f : α → Run β} (hm : Blind held m) (hf : ∀ a, Blind held (f a)) :
    Blind held (m >>= f) := by
  intro x s h
  obtain ⟨he, hu⟩ := hm x s h
  obtain ⟨he', hu'⟩ := hf (m.run s).1 x (m.run s).2 hu
  refine ⟨?_, hu'⟩
  rw [StateT.run_bind, he]
  exact he'

/-- The state can be looked at where the bytes do not show. -/
theorem get_bind {f : Running → Run α} (hf : ∀ s, Blind held (f s))
    (hsame : ∀ (x : Swap) (s : Running), x.Unseen s.world held → f (x.on s) = f s) :
    Blind held (get >>= f) := by
  intro x s h
  have he : (get >>= f).run (x.on s) = (f s).run (x.on s) := congrArg (·.run (x.on s)) (hsame x s h)
  rw [he]
  exact hf s x s h

theorem changeWorld {f : World → World}
    (hf : ∀ (x : Swap) (w : World), x.Unseen w held →
      f (x.apply w) = x.apply (f w) ∧ x.Unseen (f w) held) :
    Blind held (changeWorld f) := by
  rintro x ⟨here, w⟩ h
  obtain ⟨he, hu⟩ := hf x w h
  exact ⟨congrArg (fun w => ((), Running.mk here w)) he, hu⟩

end Blind

/-- The executor records to an open file that is held, if to any, and so are the streams. -/
structure Holds (ex : Executor) (held : List Nat) (streams : Streams) : Prop
    extends streams.Among held where
  recorder : ∀ h ∈ ex.recorder.file?, h ∈ held

/-- Something that is blind whatever open files it is given for its streams. -/
def BlindBody (ex : Executor) (body : Streams → Run Status) : Prop :=
  ∀ (held : List Nat) (streams : Streams), ex.Holds held streams → Blind held (body streams)

theorem Holds.mono {ex : Executor} {held more : List Nat} {streams : Streams}
    (h : ex.Holds held streams) (hs : held ⊆ more) : ex.Holds more streams :=
  ⟨⟨hs h.input, hs h.output, hs h.error⟩, fun k hk => hs (h.recorder k hk)⟩

theorem among_set {held : List Nat} {streams : Streams} (h : streams.Among held) {handle : Nat}
    (hh : handle ∈ held) (slot : Slot) : (slot.set streams handle).Among held := by
  cases slot
  · exact { h with input := hh }
  · exact { h with output := hh }
  · exact { h with error := hh }

section
variable {ex : Executor} {held : List Nat} {streams : Streams} {argv : List Bytes}

theorem blind_print {k : Nat} (hk : k ∈ held) (text : Bytes) :
    Blind held (changeWorld (·.print k text)) := by
  refine .changeWorld fun x w h => ⟨Swap.print_apply (h.held k hk) text, ?_⟩
  exact h.later (w.keepsNameless_write k text) (w.quiet_print k text).settled.within

theorem blind_closeAll (handles : List Nat) : Blind held (closeAll handles) := by
  refine .changeWorld fun x w h => ?_
  induction handles generalizing w with
  | nil => exact ⟨rfl, h⟩
  | cons k handles ih =>
    rw [List.foldl_cons, x.close_apply]
    exact ih _ (h.later (.refl _) (w.within_close k))

variable (hs : ex.Holds held streams)
include hs

theorem blind_say (text : Bytes) : Blind held (ex.say streams text) := blind_print hs.error _

theorem blind_record (e : Event) : Blind held (ex.record e) := by
  refine .changeWorld fun x w h => ?_
  refine ⟨Swap.record_apply (fun k hk => h.held k (hs.recorder k hk)) "event" e, ?_⟩
  exact h.later (w.keepsNameless_record ..) (w.quiet_record ..).settled.within

theorem blind_reportSide (side : Bytes) (status : Status) :
    Blind held (ex.reportSide streams side status) := by
  unfold reportSide
  split
  · exact blind_say hs _
  · exact .pure _

theorem blind_notStarted (subject reason : Bytes) (status : Status) :
    Blind held (ex.notStarted streams argv subject reason status) :=
  (blind_say hs _).bind fun _ => (blind_record hs _).bind fun _ => .pure _

theorem blind_runProgram (path dir : Bytes) (invocation : Invocation) :
    Blind held (ex.runProgram streams argv path dir invocation) := by
  have hbegin (w : World) : w.Within w.begin :=
    ⟨List.Subset.refl _, List.Subset.refl _, Nat.le_refl _, rfl⟩
  refine .bind (.changeWorld fun x w h => ⟨rfl, h.later (.refl _) (hbegin w)⟩) fun _ => ?_
  refine .get_bind (fun s => ?_) fun x s h => rfl
  refine (blind_record hs _).bind fun _ => .bind ?_ fun outcome => ?_
  · rintro x ⟨here, w⟩ h
    have hrun := Swap.run_apply hs.toAmong invocation.dir (ex.programs invocation) h
    have hafter := (w.quiet_run streams invocation.dir (ex.programs invocation)).settled.tell
      (e := .ended s.world.started) rfl
    exact ⟨congrArg (fun p : Outcome × World =>
        (p.1, Running.mk here (p.2.tell (.ended s.world.started)))) hrun,
      h.later (w.keepsNameless_run ..) hafter.within⟩
  · exact (blind_record hs _).bind fun _ => .pure _

theorem blind_spawn (argv : List Bytes) : Blind held (ex.spawn streams argv) := by
  unfold spawn
  refine .get_bind (fun s => ?_) fun x s h => ?_
  · dsimp only
    split
    · exact blind_notStarted hs _ _ _
    · split
      · exact blind_notStarted hs _ _ _
      · split
        · exact blind_notStarted hs _ _ _
        · exact blind_runProgram hs _ _ _
  · have hl : (x.on s).world.disk = x.onDisk s.world.disk := rfl
    have hh : (x.on s).here = s.here := rfl
    simp only [hl, hh, x.lookup_onDisk, Swap.prepare_onDisk h.content]

theorem blind_builtin (b : Builtin) : Blind held (ex.builtin streams argv b) := by
  cases b with
  | cd =>
    unfold builtin
    refine .get_bind (fun s => ?_) fun x s h => ?_
    · dsimp only
      split
      · refine .bind ?_ fun _ => (blind_print hs.output _).bind fun _ =>
          (blind_record hs _).bind fun _ => .pure _
        exact fun x s h => ⟨rfl, h⟩
      · exact (blind_say hs _).bind fun _ => (blind_record hs _).bind fun _ => .pure _
    · have hl : (x.on s).world.disk = x.onDisk s.world.disk := rfl
      have hh : (x.on s).here = s.here := rfl
      simp only [hl, hh, x.cd_onDisk]

theorem redirectionFailed_on {x : Swap} {s : Running} (h : x.Unseen s.world held)
    (argv : List Bytes) (target : Target) (path : Bytes) (e : PathError) (opened : List Nat) :
    let after := ex.redirectionFailed argv streams s target path e opened
    ex.redirectionFailed argv streams (x.on s) target path e opened = x.on after ∧
      x.Unseen after.world held := by
  have hb (text : Bytes) (failure : RedirectFailure) : Blind held (do
      ex.say streams text
      ex.record (.redirectFailure failure)
      closeAll opened) :=
    (blind_say hs _).bind fun _ => (blind_record hs _).bind fun _ => blind_closeAll opened
  obtain ⟨he, hu⟩ := hb _ _ x s h
  exact ⟨congrArg Prod.snd he, hu⟩

/-- Targets are opened in the same way, and what is opened is no way to the bytes. -/
theorem openTargets_on (x : Swap) (argv : List Bytes) (list : List Target) (inner : Streams) (opened : List Nat)
    (s : Running) (hi : inner.Among (opened ++ held)) (h : x.Unseen s.world (opened ++ held)) :
    let run := (ex.openTargets argv list inner opened).run s
    (ex.openTargets argv list inner opened).run (x.on s) = (run.1, x.on run.2) ∧
      match run.1 with
      | none => x.Unseen run.2.world held
      | some (inner, opened) =>
        inner.Among (opened ++ held) ∧ x.Unseen run.2.world (opened ++ held) := by
  induction list generalizing inner opened s with
  | nil => exact ⟨rfl, hi, h⟩
  | cons target rest ih =>
    have hx := Swap.openPath_apply h.toHidden target.access []
      (Path.resolve s.here.dir target.path)
    obtain ⟨handle, world, ho⟩ | ⟨e, world, ho⟩ := openPath_cases (s := s) target.access
      (Path.resolve s.here.dir target.path)
    · rw [ho] at hx
      rw [run_openTargets_ok ho, run_openTargets_ok (s := x.on s) hx]
      refine ih _ _ { s with world } ?_ ((h.openPath ho).subset (by simp))
      have hmem {k : Nat} (hk : k ∈ opened ++ held) : k ∈ (opened ++ [handle]) ++ held := by
        simp only [List.mem_append] at hk ⊢
        tauto
      exact among_set ⟨hmem hi.input, hmem hi.output, hmem hi.error⟩ (by simp) target.slot
    · rw [ho] at hx
      rw [run_openTargets_error ho, run_openTargets_error (s := x.on s) hx]
      have hd := s.world.keepsNameless_openPath target.access []
        (Path.resolve s.here.dir target.path)
      rw [ho] at hd
      have hu := h.later hd (World.quiet_openPath ho).settled.within
      have hinner : ex.Holds (opened ++ held) inner :=
        ⟨hi, fun k hk => List.mem_append_right opened (hs.recorder k hk)⟩
      obtain ⟨he, hclosed⟩ := redirectionFailed_on hinner (s := { s with world }) hu argv target
        (Path.resolve s.here.dir target.path) e opened
      exact ⟨congrArg (Prod.mk none) he, hclosed.subset (List.subset_append_right opened held)⟩

theorem blind_redirected {files : Redirections} {body : Streams → Run Status}
    (hbody : ex.BlindBody body) :
    Blind held (ex.redirected argv files streams body) := by
  intro x s h
  have ht := openTargets_on hs x argv (targets files) streams [] s hs.toAmong h
  rw [run_redirected, run_redirected]
  generalize (ex.openTargets argv (targets files) streams []).run s = p at ht
  obtain ⟨he, hresult⟩ := ht
  rw [he]
  obtain ⟨_ | ⟨inner, opened⟩, after⟩ := p
  · exact ⟨rfl, hresult⟩
  · obtain ⟨hi, hu⟩ := hresult
    have hsub : held ⊆ opened ++ held := List.subset_append_right opened held
    have hb : Blind (opened ++ held) (do
        let status ← body inner
        closeAll opened
        return status) :=
      (hbody _ inner ⟨hi, fun k hk => hsub (hs.recorder k hk)⟩).bind fun _ =>
        (blind_closeAll opened).bind fun _ => .pure _
    obtain ⟨he, hu⟩ := hb x after hu
    exact ⟨he, hu.subset hsub⟩

theorem blind_plain {files : Redirections} : Blind held (ex.plain argv files streams) := by
  cases argv with
  | nil => exact (blind_say hs _).bind fun _ => .pure _
  | cons name args =>
    unfold plain
    dsimp only
    split
    · exact blind_builtin hs _
    · exact blind_redirected hs fun held inner hi => blind_spawn hi (name :: args)

end

/-! Pipes. -/

section Pipe
variable {ex : Executor} {held : List Nat} {streams : Streams} {left right : Streams → Run Status}
  {x : Swap} (here : Surroundings) {ends : World.PipeEnds} {w : World}

theorem leftSide_on (hl : ex.BlindBody left)
    (hs : ex.Holds held streams) (he : ends.write ∈ held) (hn : x.source ≠ .pipe ends.number)
    (h : x.Unseen w held) :
    leftSide left streams here ends (x.apply w) = x.apply (leftSide left streams here ends w) ∧
      x.Unseen (leftSide left streams here ends w) held := by
  obtain ⟨hleft, hu⟩ := hl held { streams with output := ends.write } { hs with output := he }
    x ⟨here.fork, w⟩ h
  constructor
  · change ((((left _).run (x.on ⟨here.fork, w⟩)).2.world.close ends.write).unbind ends.number) = _
    rw [hleft]
    exact (congrArg (·.unbind ends.number) (x.close_apply _ _)).trans (Swap.unbind_apply hn)
  · exact hu.later (.refl _) ((World.within_close _ ends.write).trans
      (World.quiet_unbind _ ends.number).settled.within)

theorem rightSide_on (hr : ex.BlindBody right) (hs : ex.Holds held streams)
    (he : ends.read ∈ held) (h : x.Unseen w held) :
    let side := rightSide right streams here ends w
    rightSide right streams here ends (x.apply w) = (side.1, x.apply side.2) ∧
      x.Unseen side.2 held := by
  obtain ⟨hright, hu⟩ := hr held { streams with input := ends.read } { hs with input := he }
    x ⟨here.fork, w⟩ h
  exact ⟨congrArg (fun p : Status × Running => (p.1.exitCode, p.2.world)) hright, hu⟩

/-- The two sides of a pipe do the same, and as much is left in the pipe. -/
theorem pipeSides_on (hl : ex.BlindBody left) (hr : ex.BlindBody right)
    (hs : ex.Holds held streams) (h : x.Unseen w (ends.read :: ends.write :: held)) (hn : x.source ≠ .pipe ends.number) :
    let p := pipeSides left right streams here ends w
    pipeSides left right streams here ends (x.apply w) = { p with after := x.on p.after } ∧
      x.Unseen p.after.world held := by
  have hs := hs.mono (List.subset_cons_of_subset ends.read (List.subset_cons_self ends.write held))
  obtain ⟨hleft, hu⟩ := leftSide_on here hl hs (by simp) hn h
  have hwritten := Swap.available_apply (hu.held ends.read (by simp))
  have hread : ends.read ∈ ends.read :: ends.write :: held := List.mem_cons_self
  obtain ⟨hright, hu'⟩ := rightSide_on here hr hs hread hu
  have hunread := Swap.available_apply (hu'.held ends.read (by simp))
  have hlast := x.close_apply (rightSide right streams here ends
    (leftSide left streams here ends w)).2 ends.read
  constructor
  · simp only [pipeSides, hleft, hwritten, hright, hunread, hlast, x.dropPipe_apply]
    rfl
  · refine (hu'.subset ?_).later (.refl _) ?_
    · exact List.subset_cons_of_subset ends.read (List.subset_cons_self ends.write held)
    · exact (World.within_close _ ends.read).trans (World.within_dropPipe _ ends.number)

theorem pipeWith_on (hl : ex.BlindBody left) (hr : ex.BlindBody right) (hs : ex.Holds held streams)
    {s : Running} (h : x.Unseen s.world held) (room : Option Nat) :
    match pipeWith left right streams room s with
    | .ok p =>
      pipeWith left right streams room (x.on s) = .ok { p with after := x.on p.after } ∧
        x.Unseen p.after.world held
    | .error after =>
      pipeWith left right streams room (x.on s) = .error (x.on after) ∧
        x.Unseen after.world held := by
  have hx : (x.on s).world.openPipe room = _ := Swap.openPipe_apply h.toHidden room
  have hd := s.world.keepsNameless_openPipe room
  rw [pipeWith, pipeWith, hx]
  cases ho : s.world.openPipe room with
  | mk result opened =>
    rw [ho] at hd
    cases result with
    | none => exact ⟨rfl, h.later hd (World.openPipe_none ho).settled.within⟩
    | some ends =>
      obtain ⟨hu, hn⟩ := h.openPipe ho
      obtain ⟨he, hafter⟩ := pipeSides_on s.here hl hr hs hu hn
      exact ⟨congrArg Except.ok he, hafter⟩

theorem blind_pipe (hl : ex.BlindBody left) (hr : ex.BlindBody right)
    (hs : ex.Holds held streams) : Blind held (ex.pipe left right streams) := by
  intro x s h
  have hroom : pipeRoom streams (x.on s) left right = pipeRoom streams s left right := by
    have hp := pipeWith_on hl hr hs h none
    rw [pipeRoom, pipeRoom]
    cases hfree : pipeWith left right streams none s <;> rw [hfree] at hp <;> rw [hp.1]
  have hp := pipeWith_on hl hr hs h (pipeRoom streams s left right)
  rw [run_pipe, run_pipe, hroom, pipeResult, pipeResult]
  cases hresult : pipeWith left right streams (pipeRoom streams s left right) s with
  | ok p =>
    rw [hresult] at hp
    rw [hp.1]
    exact ⟨rfl, hp.2⟩
  | error after =>
    rw [hresult] at hp
    rw [hp.1]
    obtain ⟨he, hu⟩ := blind_say hs ("pipe: pipe2: " ++ PathError.tooManyFiles.message) x after hp.2
    exact ⟨congrArg (fun p : Unit × Running => (Status.unknown, p.2)) he, hu⟩

end Pipe

/-- A tree is blind to what its streams do not lead to. -/
theorem blindBody_execute (ex : Executor) (t : Tree) : ex.BlindBody (ex.execute t) := by
  induction t with
  | absent => exact fun held streams hs => (blind_say hs _).bind fun _ => .pure _
  | node kind argv files l r ihl ihr =>
    intro held streams hs
    have hl := ihl held streams hs
    have hr := ihr held streams hs
    cases kind with
    | plain => exact blind_plain hs
    | sequence =>
      exact hl.bind fun _ => (blind_reportSide hs _ _).bind fun _ => hr.bind fun _ =>
        (blind_reportSide hs _ _).bind fun _ => .pure _
    | and | or =>
      refine hl.bind fun status => ?_
      split
      · exact .pure _
      · exact hr
    | pipe => exact blind_pipe ihl ihr hs
    | subshell =>
      exact blind_redirected hs fun held inner hi => (ihl held inner hi).bind fun _ => .pure _
    | unknown => exact (blind_say hs _).bind fun _ => .pure _

end Executor

end CommandShell
