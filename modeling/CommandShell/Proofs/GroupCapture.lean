import CommandShell.Proofs.BlindRun
import CommandShell.Proofs.EnvironmentCopy
import CommandShell.Proofs.StreamView

/-! A group captures all that is in it. If all three standard streams of a group have targets that
open, then nothing in the group, at any depth, reads or writes the streams around it. -/
namespace CommandShell

/-- Every standard stream has a target. -/
structure Redirections.Full (files : Redirections) : Prop where
  input : files.input ≠ []
  output : files.output ≠ [] ∨ files.append ≠ []
  error : files.error ≠ []

/-- No number is used twice. -/
structure World.Distinct (w : World) : Prop where
  files : (w.files.map Prod.fst).Nodup
  pipes : (w.pipes.map Prod.fst).Nodup

namespace Swap

theorem Misses.of_null {x : Swap} (hx : x.source = .disk .null) (source : Source) :
    x.Misses source := by
  rcases source with (id | _ | _) | n <;> simp [Misses, hx]

/-- The exchange of a place and of bytes for what is there now. -/
def now (w : World) (k : Nat) (source : Source) : Swap where
  handle := k
  offset := ((w.file? k).map OpenFile.offset).getD 0
  source
  data := ((w.behind source).getD {}).waiting
  room := ((w.behind source).getD {}).room

/-- It changes nothing. -/
theorem apply_now {w : World} (hw : w.Distinct) (k : Nat) (source : Source) :
    (now w k source).apply w = w := by
  have hdisk : (now w k source).onDisk w.disk = w.disk := by
    rcases source with (id | _ | _) | n
    · have hset : w.disk.contents.set id (w.disk.contents[id]?.getD []) = w.disk.contents := by
        by_cases hid : id < w.disk.contents.length
        · simp [hid]
        · exact List.set_eq_of_length_le (Nat.le_of_not_lt hid)
      have hdata : (now w k (.disk (.content id))).data = w.disk.contents[id]?.getD [] := by
        cases hc : w.disk.contents[id]? <;> simp [now, World.behind, hc]
      simp only [onDisk, Disk.setContent, hdata]
      exact congrArg (fun contents => { w.disk with contents }) hset
    · rfl
    · rfl
    · rfl
  have hfiles : w.files.map (now w k source).onFile = w.files := by
    refine (List.map_congr_left fun entry hm => ?_).trans (List.map_id _)
    have hf : w.file? entry.1 = some entry.2 := find?_of_mem hw.files hm
    by_cases hk : entry.1 = k
    · subst hk
      simp [onFile, now, hf]
    · simp [onFile, now, hk]
  have hpipes : w.pipes.map (now w k source).onPipe = w.pipes := by
    refine (List.map_congr_left fun entry hm => ?_).trans (List.map_id _)
    have hp : w.pipe? entry.1 = some entry.2 := find?_of_mem hw.pipes hm
    by_cases hs : source = .pipe entry.1
    · subst hs
      simp [onPipe, now, World.behind, hp]
    · simp [onPipe, now, hs]
  rw [apply, hdisk, hfiles, hpipes]

section
variable {w w' : World} {k : Nat} {source : Source} (h : (now w k source).apply w' = w')
include h

/-- A world that it does not change either has the file at the same place. -/
theorem file?_of_now (ht : w'.table = w.table) : w'.file? k = w.file? k := by
  have hplace : w'.file? k =
      (w'.file? k).map fun f => { f with offset := ((w.file? k).map OpenFile.offset).getD 0 } := by
    nth_rewrite 1 [← h]
    exact find?_map_key w'.files k (onFile_fst _) fun f => by simp [onFile, now]
  have hlook (w : World) : (w.file? k).map (fun f => (f.source, f.append)) =
      (w.table.find? (·.1 == k)).map Prod.snd := by
    simp [World.file?, World.table, List.find?_map, Function.comp_def]
  have hsame := (hlook w').trans ((congrArg (fun t => (t.find? (·.1 == k)).map Prod.snd) ht).trans
    (hlook w).symm)
  generalize w.file? k = x, w'.file? k = x' at hplace hsame
  rcases x with _ | ⟨source, offset, append⟩ <;> rcases x' with _ | ⟨source', offset', append'⟩
  · rfl
  · cases hsame
  · cases hsame
  · cases hsame
    cases hplace
    rfl

/-- And the same is behind it. -/
theorem behind_of_now (hp : w'.pipeNumbers = w.pipeNumbers)
    (hc : ∀ id, source = .disk (.content id) → w.disk.Nameless id ∧ w'.disk.Nameless id) :
    w'.behind source = w.behind source := by
  rcases source with (id | _ | _) | n
  · obtain ⟨⟨hs, -⟩, ⟨hs', -⟩⟩ := hc id rfl
    have hcontents : w'.disk.contents.set id (w.disk.contents.get ⟨id, hs⟩) = w'.disk.contents := by
      simpa [apply, onDisk, now, World.behind, Disk.setContent, hs] using
        congrArg (fun w => w.disk.contents) h
    have hget := List.getElem?_set_self (a := w.disk.contents.get ⟨id, hs⟩) hs'
    rw [hcontents] at hget
    simp [World.behind, hget, hs]
  · rfl
  · rfl
  · have hpipe : w'.pipe? n = (w'.pipe? n).map fun _ => (w.pipe? n).getD {} := by
      nth_rewrite 1 [← h]
      exact find?_map_key w'.pipes n (onPipe_fst _) fun p => by simp [onPipe, now, World.behind]
    have hnumber (w : World) : (w.pipe? n).isSome ↔ n ∈ w.pipeNumbers := by
      simp [World.pipe?, World.pipeNumbers]
    have hsame : (w'.pipe? n).isSome ↔ (w.pipe? n).isSome := by rw [hnumber, hnumber, hp]
    change w'.pipe? n = w.pipe? n
    generalize w.pipe? n = x, w'.pipe? n = x' at hpipe hsame
    rcases x with _ | p <;> rcases x' with _ | p'
    · rfl
    · simp at hsame
    · simp at hsame
    · exact hpipe

end

end Swap

namespace Executor

/-- The open file in the place of a stream. -/
def Slot.get : Slot → Streams → Nat
  | input, streams => streams.input
  | output, streams => streams.output
  | error, streams => streams.error

theorem Slot.get_set {a b : Streams} {slot other : Slot} (h : slot = other ∨ other.get a = other.get b)
    (handle : Nat) : other.get (slot.set a handle) = other.get (slot.set b handle) := by
  cases slot <;> cases other <;> simp_all [Slot.get, Slot.set]

theorem streams_eq_of_get {a b : Streams} (h : ∀ slot : Slot, slot.get a = slot.get b) : a = b := by
  obtain ⟨i, o, e⟩ := a
  obtain ⟨i', o', e'⟩ := b
  obtain rfl : i = i' := h .input
  obtain rfl : o = o' := h .output
  obtain rfl : e = e' := h .error
  rfl

theorem exists_target {files : Redirections} (hf : files.Full) (slot : Slot) :
    ∃ target ∈ targets files, target.slot = slot := by
  cases slot with
  | input => exact ⟨⟨.input, files.input, .read, "input"⟩, by simp [targets, hf.input], rfl⟩
  | output =>
    rcases hf.output with ho | ho
    · exact ⟨⟨.output, files.output, .replace 0o644, "output"⟩, by simp [targets, ho], rfl⟩
    · exact ⟨⟨.output, files.append, .extend 0o644, "output"⟩, by simp [targets, ho], rfl⟩
  | error =>
    exact ⟨⟨.error, files.error, .replace 0o644, "error"⟩, by simp [targets, hf.error], rfl⟩

section
variable {ex : Executor} {argv : List Bytes} {files : Redirections} {streams inner : Streams}
  {list : List Target} {opened handles : List Nat} {s after : Running}

/-- Targets that open do so whatever streams they take the place of. -/
theorem openTargets_some_of_some
    (h : (ex.openTargets argv list streams opened).run s = (some (inner, handles), after))
    (streams' : Streams) :
    ∃ inner', (ex.openTargets argv list streams' opened).run s =
        (some (inner', handles), after) ∧
      ∀ slot : Slot, ((∃ target ∈ list, target.slot = slot) ∨ slot.get streams' = slot.get streams) →
        slot.get inner' = slot.get inner := by
  induction list generalizing streams streams' s opened with
  | nil =>
    cases h
    exact ⟨streams', rfl, fun slot hslot => hslot.elim (by simp) id⟩
  | cons target rest ih =>
    obtain ⟨handle, world, ho⟩ | ⟨e, world, ho⟩ := openPath_cases (s := s) target.access
      (Path.resolve s.here.dir target.path)
    · rw [run_openTargets_ok ho] at h
      obtain ⟨inner', hrun, hslots⟩ := ih h (target.slot.set streams' handle)
      refine ⟨inner', by rw [run_openTargets_ok ho, hrun], fun slot hslot => hslots slot ?_⟩
      rcases hslot with ⟨t, ht, rfl⟩ | hsame
      · rcases List.mem_cons.mp ht with rfl | ht
        · exact .inr (Slot.get_set (.inl rfl) handle)
        · exact .inl ⟨t, ht, rfl⟩
      · exact .inr (Slot.get_set (.inr hsame) handle)
    · rw [run_openTargets_error ho] at h
      cases h

theorem openTargets_ne_none
    (h : ((ex.openTargets argv list streams opened).run s).1 ≠ none)
    (streams' : Streams) :
    ((ex.openTargets argv list streams' opened).run s).1 ≠ none := by
  rcases hrun : (ex.openTargets argv list streams opened).run s with
    ⟨_ | ⟨inner, handles⟩, after⟩
  · exact absurd (congrArg Prod.fst hrun) h
  · obtain ⟨inner', hother, -⟩ := openTargets_some_of_some hrun streams'
    simp [hother]

/-- If every stream gets a target that opens, it does not matter which streams were there before. -/
theorem run_redirected_eq (hf : files.Full)
    (h : ((ex.openTargets argv (targets files) streams []).run s).1 ≠ none)
    (other : Streams) (body : Streams → Run Status) :
    (ex.redirected argv files other body).run s = (ex.redirected argv files streams body).run s := by
  rw [run_redirected, run_redirected]
  rcases hrun : (ex.openTargets argv (targets files) streams []).run s with
    ⟨_ | ⟨inner, opened⟩, after⟩
  · exact absurd (congrArg Prod.fst hrun) h
  · obtain ⟨inner', hother, hslots⟩ := openTargets_some_of_some hrun other
    obtain rfl : inner' = inner := streams_eq_of_get fun slot => hslots slot (.inl (exists_target hf slot))
    rw [hother]

end

section
variable {ex : Executor} {argv : List Bytes} {files : Redirections} {streams : Streams} {s : Running}
  (hf : files.Full)
  (ho : ((ex.openTargets argv (targets files) streams []).run s).1 ≠ none)
include hf ho

theorem run_group_eq (n r : Tree) (other : Streams) :
    (ex.execute (.node .subshell argv files n r) other).run s =
      (ex.execute (.node .subshell argv files n r) streams).run s := by
  rw [run_subshell, run_subshell]
  exact run_redirected_eq hf ho other _

/-- What the streams outside lead to is out of the group's reach. -/
theorem run_group_on (n r : Tree) (hw : s.world.Numbered) {x : Swap} (hx : x.Hidden s.world)
    (hr : ∀ h ∈ ex.recorder.file?, x.Clear s.world h) :
    let run := (ex.execute (.node .subshell argv files n r) streams).run s
    (ex.execute (.node .subshell argv files n r) streams).run (x.on s) = (run.1, x.on run.2) ∧
      x.Hidden run.2.world := by
  -- streams that are not open stand for those outside, which do not matter
  let held := s.world.fresh :: ex.recorder.file?.toList
  let other : Streams := ⟨s.world.fresh, s.world.fresh, s.world.fresh⟩
  have hmem : s.world.fresh ∈ held := List.mem_cons_self
  have hs : ex.Holds held other :=
    ⟨⟨hmem, hmem, hmem⟩, fun h hh => List.mem_cons_of_mem _ (by simpa using hh)⟩
  have hu : x.Unseen s.world held := by
    refine { hx with numbered := hw, held := List.forall_mem_cons.mpr ⟨?_, ?_⟩ }
    · exact hx.clear_new hw (fun _ hm => .inl hm) (Nat.le_refl _)
    · intro k hk
      exact hr k (by simpa using hk)
  have hopen : ((ex.openTargets argv (targets files) other []).run (x.on s)).1 ≠ none := by
    rw [(openTargets_on hs x argv (targets files) other [] s hs.toAmong hu).1]
    exact openTargets_ne_none ho other
  obtain ⟨he, hafter⟩ := blindBody_execute ex (.node .subshell argv files n r) held other hs x s hu
  rw [run_group_eq hf ho n r other] at he hafter
  rw [run_group_eq hf hopen n r streams]
  exact ⟨he, hafter.toHidden⟩

/-- What is out of the group's reach stays as it is. -/
theorem run_group_now (n r : Tree) (hw : s.world.Numbered) (hd : s.world.Distinct) (k : Nat)
    (source : Source) (hx : (Swap.now s.world k source).Hidden s.world)
    (hr : ∀ h ∈ ex.recorder.file?, (Swap.now s.world k source).Clear s.world h) :
    let after := ((ex.execute (.node .subshell argv files n r) streams).run s).2.world
    after.file? k = s.world.file? k ∧ after.behind source = s.world.behind source := by
  obtain ⟨trail, hset⟩ := ex.execute_settled (.node .subshell argv files n r) streams s hw
  obtain ⟨he, hhidden⟩ := run_group_on hf ho n r hw hx hr
  have hsame : (Swap.now s.world k source).on s = s :=
    congrArg (Running.mk s.here) (Swap.apply_now hd k source)
  rw [hsame] at he
  have hafter := (congrArg (fun p : Status × Running => p.2.world) he).symm
  exact ⟨Swap.file?_of_now hafter hset.table,
    Swap.behind_of_now hafter hset.pipes fun id hid => ⟨hx.content id hid, hhidden.content id hid⟩⟩

end

/-- A group whose targets for all three streams open does the same wherever the streams around it
lead. It leaves every file that was open where it was, the recorder's apart. And it does the same
whatever bytes are behind such a file, as long as no path leads to them and the recorder does not
write there: what it leaves then differs in these bytes alone, which are still what they were. -/
theorem group_captures_streams (ex : Executor) (argv : List Bytes) (files : Redirections)
    (n r : Tree) (streams : Streams) (s : Running) (hf : files.Full)
    (ho : ((ex.openTargets argv (targets files) streams []).run s).1 ≠ none)
    (hw : s.world.Numbered) (hd : s.world.Distinct) :
    let group : Tree := .node .subshell argv files n r
    let run := (ex.execute group streams).run s
    (∀ other, (ex.execute group other).run s = run) ∧
    (∀ k < s.world.fresh, (∀ h ∈ ex.recorder.file?, h ≠ k) →
      run.2.world.file? k = s.world.file? k) ∧
    ∀ x : Swap, x.Hidden s.world → (∀ h ∈ ex.recorder.file?, x.Clear s.world h) →
      (ex.execute group streams).run (x.on s) = (run.1, x.on run.2) ∧
        run.2.world.behind x.source = s.world.behind x.source := by
  refine ⟨run_group_eq hf ho n r, fun k hk hr => ?_, fun x hx hr => ⟨?_, ?_⟩⟩
  · -- a device holds no bytes, so that only the place in the file counts
    have hx : (Swap.now s.world k (.disk .null)).Hidden s.world := ⟨hk, by rintro _ ⟨⟩, by rintro _ ⟨⟩⟩
    exact (run_group_now hf ho n r hw hd k _ hx fun h hh => ⟨hr h hh, fun _ _ _ => .of_null rfl _⟩).1
  · exact (run_group_on hf ho n r hw hx hr).1
  · exact (run_group_now hf ho n r hw hd x.handle x.source
      ⟨hx.handle, hx.content, hx.pipe⟩ fun h hh => ⟨(hr h hh).handle, (hr h hh).source⟩).2

/-- A pipe and a program that is not there, in a group: the first copies what the group is given, and
all complaints are written to the group's own file. -/
theorem group_captures_streams_pipe :
    let ex : Executor := { name := [], programs := fun _ => .copy (.complain "!" (.exit 0)) }
    let files : Redirections := { input := "/i", append := "/o", error := "/e" }
    let body : Tree := .node .sequence [] {}
      (.node .pipe [] {} (.plain ["/p"]) (.plain ["/p"])) (.plain ["/none"])
    let group : Tree := .node .subshell [] files body .absent
    let disk := (({} : Disk).putFile ["i"] 0o644 "in").putFile ["p"] 0o755 Launch.imageMark
    let s : Running := ⟨⟨"/", .empty⟩, Sandbox.start disk "outer"⟩
    let x : Swap := { handle := 0, offset := 2, source := .disk (.content 2), data := "other" }
    let run := (ex.execute group Sandbox.streams).run s
    files.Full ∧ s.world.Numbered ∧ s.world.Distinct ∧ x.Hidden s.world ∧
      (ex.execute group Sandbox.streams).run (x.on s) = (run.1, x.on run.2) ∧
      (run.2.world.file? 0, run.2.world.behind (.disk (.content 2))) =
        (some { source := .disk (.content 2) }, some { waiting := "outer" }) ∧
      (run.2.world.disk.readFile [] "/o").toOption = some "in" := by
  intro ex files body group disk s x run
  have hf : files.Full := ⟨by decide, .inr (by decide), by decide⟩
  have hw : s.world.Numbered := Sandbox.numbered_start _ _
  have hd : s.world.Distinct := ⟨by decide, by decide⟩
  have hitems : s.world.disk.items.map Prod.snd =
      [.file 0o755 1, .file 0o644 0, .directory 0o755] := by decide
  have hx : x.Hidden s.world := by
    refine ⟨by decide, ?_, by rintro _ ⟨⟩⟩
    rintro _ ⟨⟩
    refine ⟨by decide, fun entry hm mode he => ?_⟩
    have hmem := List.mem_map_of_mem (f := Prod.snd) hm
    rw [hitems, he] at hmem
    simp at hmem
  have ho : ((ex.openTargets [] (targets files) Sandbox.streams []).run s).1 =
      some (⟨3, 4, 5⟩, [3, 4, 5]) := by
    subst ex files s disk
    cbv
  obtain ⟨-, hfile, hblind⟩ := ex.group_captures_streams [] files body .absent Sandbox.streams s hf
    (by simp [ho]) hw hd
  obtain ⟨he, hbehind⟩ := hblind x hx (by rintro _ ⟨⟩)
  refine ⟨hf, hw, hd, hx, he, ?_, ?_⟩
  · rw [hfile 0 (by decide) (by rintro _ ⟨⟩), hbehind]
    rfl
  · subst run ex group body files s disk
    cbv

end Executor

end CommandShell
