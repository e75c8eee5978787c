import CommandShell.Proofs.HiddenStream
import CommandShell.Proofs.StreamView

/-! If the system refuses no request, then it refuses none after a tree was run. -/
namespace CommandShell

namespace World
variable {w : World}

theorem Granted.consume (h : w.Granted) (k n : Nat) : (w.consume k n).Granted := by
  unfold World.consume
  split
  · split
    · exact h
    · exact h
    · split <;> exact h
  · exact h

theorem Granted.write (h : w.Granted) (k : Nat) (s : Bytes) : (w.write k s).2.Granted := by
  unfold World.write
  split
  · exact h
  · split
    · split
      · exact h
      · exact h
      · split
        · exact h
        · split
          · exact h
          · split <;> exact h
    · exact h

theorem Granted.change (h : w.Granted) (f : Disk → Except PathError Disk) :
    (Program.change w f).2.Granted := by
  unfold Program.change
  split <;> exact h

theorem Granted.run (h : w.Granted) (streams : Streams) (dir : Place) (p : Program) :
    (p.run streams dir w).2.Granted :=
  Program.run_rel (R := fun w w' => w.Granted → w'.Granted) (fun h h' hw => h' (h hw))
    (fun _ k n hw => hw.consume k n) (fun _ k s hw => hw.write k s) (fun _ => id)
    (fun _ _ _ hw => hw.change _) (fun _ _ _ hw => hw.change _) streams dir p w h

theorem Granted.record (h : w.Granted) (recorder : Recorder) (subject : Bytes) (e : Event) :
    (recorder.record subject e w).Granted := by
  cases recorder with
  | silent | broken | memory => exact h
  | file handle session => exact h.write _ _

theorem Granted.tail (h : w.Granted) : w.request.2.Granted :=
  fun refused hm => h refused (List.mem_of_mem_tail hm)

theorem Granted.openPath (h : w.Granted) (access : Disk.Access) (cwd : Place) (path : Bytes) :
    (w.openPath access cwd path).2.Granted := by
  unfold World.openPath
  dsimp only
  split
  · exact h.tail
  · split <;> exact h.tail

theorem Granted.foldl_close (h : w.Granted) (handles : List Nat) :
    (handles.foldl World.close w).Granted := by
  induction handles generalizing w with
  | nil => exact h
  | cons k handles ih => exact ih (w := w.close k) h

end World

namespace Executor

/-- Something that leaves no request to be refused if there was none before. -/
def KeepsGranted {α : Type} (m : Run α) : Prop :=
  ∀ s : Running, s.world.Granted → (m.run s).2.world.Granted

namespace KeepsGranted
variable {α β : Type}

theorem pure (a : α) : KeepsGranted (Pure.pure a) := fun _ h => h

theorem bind {m : Run α} {f : α → Run β} (hm : KeepsGranted m) (hf : ∀ a, KeepsGranted (f a)) :
    KeepsGranted (m >>= f) :=
  fun s h => hf _ _ (hm s h)

theorem get_bind {f : Running → Run α} (hf : ∀ s, KeepsGranted (f s)) : KeepsGranted (get >>= f) :=
  fun s h => hf s s h

end KeepsGranted

variable (ex : Executor) (streams : Streams) (argv : List Bytes)

theorem keepsGranted_say (text : Bytes) : KeepsGranted (ex.say streams text) :=
  fun _ h => h.write _ _

theorem keepsGranted_record (e : Event) : KeepsGranted (ex.record e) :=
  fun _ h => h.record _ _ _

theorem keepsGranted_reportSide (side : Bytes) (status : Status) :
    KeepsGranted (ex.reportSide streams side status) := by
  unfold reportSide
  split
  · exact ex.keepsGranted_say streams _
  · exact .pure _

theorem keepsGranted_notStarted (subject reason : Bytes) (status : Status) :
    KeepsGranted (ex.notStarted streams argv subject reason status) :=
  (ex.keepsGranted_say streams _).bind fun _ => (ex.keepsGranted_record _).bind fun _ => .pure _

theorem keepsGranted_runProgram (path dir : Bytes) (invocation : Invocation) :
    KeepsGranted (ex.runProgram streams argv path dir invocation) := by
  have hran {w : World} (h : w.Granted) := h.run streams invocation.dir (ex.programs invocation)
  refine .bind (fun s h => h) fun _ => .get_bind fun s => (ex.keepsGranted_record _).bind fun _ => ?_
  exact .bind (fun s h => hran h) fun _ => (ex.keepsGranted_record _).bind fun _ => .pure _

theorem keepsGranted_spawn : KeepsGranted (ex.spawn streams argv) := by
  have hfailed := ex.keepsGranted_notStarted streams argv
  unfold spawn
  refine .get_bind fun s => ?_
  dsimp only
  split
  · exact hfailed _ _ _
  · split
    · exact hfailed _ _ _
    · split
      · exact hfailed _ _ _
      · exact ex.keepsGranted_runProgram streams argv _ _ _

theorem keepsGranted_builtin (b : Builtin) : KeepsGranted (ex.builtin streams argv b) := by
  cases b with
  | cd =>
    unfold builtin
    refine .get_bind fun s => ?_
    dsimp only
    split
    · exact fun s h => (World.Granted.write h _ _).record _ _ _
    · exact (ex.keepsGranted_say streams _).bind fun _ =>
        (ex.keepsGranted_record _).bind fun _ => .pure _

theorem keepsGranted_openTargets (list : List Target) (opened : List Nat) :
    KeepsGranted (ex.openTargets argv list streams opened) := by
  induction list generalizing streams opened with
  | nil => exact .pure _
  | cons target rest ih =>
    unfold openTargets
    refine .get_bind fun s => .bind (fun s h => h.openPath _ _ _) fun result => ?_
    dsimp only
    split
    · exact ih _ _
    · refine (ex.keepsGranted_say streams _).bind fun _ => (ex.keepsGranted_record _).bind fun _ => ?_
      exact .bind (fun s h => h.foldl_close opened) fun _ => .pure _

theorem keepsGranted_redirected (files : Redirections) {body : Streams → Run Status}
    (hbody : ∀ inner, KeepsGranted (body inner)) :
    KeepsGranted (ex.redirected argv files streams body) := by
  unfold redirected
  refine (ex.keepsGranted_openTargets streams argv _ _).bind fun opened => ?_
  split
  · exact .pure _
  · exact (hbody _).bind fun _ => .bind (fun s h => h.foldl_close _) fun _ => .pure _

theorem keepsGranted_plain (files : Redirections) : KeepsGranted (ex.plain argv files streams) := by
  cases argv with
  | nil => exact (ex.keepsGranted_say streams _).bind fun _ => .pure _
  | cons name args =>
    unfold plain
    dsimp only
    split
    · exact ex.keepsGranted_builtin streams _ _
    · exact ex.keepsGranted_redirected streams _ files fun inner => ex.keepsGranted_spawn inner _

theorem keepsGranted_pipe {left right : Streams → Run Status}
    (hl : ∀ inner, KeepsGranted (left inner)) (hr : ∀ inner, KeepsGranted (right inner)) :
    KeepsGranted (ex.pipe left right streams) := by
  intro s h
  rw [run_pipe, pipeResult, pipeWith]
  obtain ⟨ends, w, ho, hp⟩ := h.openPipe (pipeRoom streams s left right)
  rw [ho]
  exact hr _ _ (hl _ _ hp.granted)

/-- A tree leaves no request to be refused if there was none before. -/
theorem keepsGranted_execute (t : Tree) : KeepsGranted (ex.execute t streams) := by
  induction t generalizing streams with
  | absent => exact (ex.keepsGranted_say streams _).bind fun _ => .pure _
  | node kind argv files l r ihl ihr =>
    cases kind with
    | plain => exact ex.keepsGranted_plain streams argv files
    | sequence =>
      exact (ihl streams).bind fun _ => (ex.keepsGranted_reportSide _ _ _).bind fun _ =>
        (ihr streams).bind fun _ => (ex.keepsGranted_reportSide _ _ _).bind fun _ => .pure _
    | and | or =>
      refine (ihl streams).bind fun status => ?_
      split
      · exact .pure _
      · exact ihr streams
    | pipe => exact ex.keepsGranted_pipe streams ihl ihr
    | subshell =>
      exact ex.keepsGranted_redirected streams argv files fun inner =>
        (ihl inner).bind fun _ => .pure _
    | unknown => exact (ex.keepsGranted_say streams _).bind fun _ => .pure _

end Executor

end CommandShell
