import CommandShell.Concurrency
import CommandShell.Proofs.OpenFiles

/-! Runs in which both sides of a pipe are at work. Each move finds a world to which others may have
done anything but open and close files. The run in which the left side of every pipe is done before the
right one begins is one of them. -/
namespace CommandShell

namespace Interleaving
variable {α β : Type} {xs ys zs : List α}

theorem perm (h : Interleaving xs ys zs) : zs.Perm (xs ++ ys) := by
  induction h with
  | nil => exact .refl []
  | left x _ ih => exact ih.cons x
  | right y _ ih => exact (ih.cons y).trans List.perm_middle.symm

theorem map (f : α → β) (h : Interleaving xs ys zs) :
    Interleaving (xs.map f) (ys.map f) (zs.map f) := by
  induction h with
  | nil => exact .nil
  | left x _ ih => exact .left (f x) ih
  | right y _ ih => exact .right (f y) ih

theorem sublist_right (h : Interleaving xs ys zs) : ys.Sublist zs := by
  induction h with
  | nil => exact .slnil
  | left x _ ih => exact ih.cons x
  | right y _ ih => exact ih.cons_cons y

/-- One side may be done before the other begins. -/
theorem append (xs ys : List α) : Interleaving xs ys (xs ++ ys) := by
  induction xs with
  | nil =>
    induction ys with
    | nil => exact .nil
    | cons y ys ih => exact .right y ih
  | cons x xs ih => exact .left x ih

end Interleaving

namespace World

/-- What others may make of a world between two moves. -/
structure Drifts (w w' : World) : Prop where
  history : w'.history = w.history
  table : w'.table = w.table
  fresh : w.fresh ≤ w'.fresh

theorem Drifts.refl (w : World) : w.Drifts w := ⟨rfl, rfl, Nat.le_refl _⟩

theorem Drifts.trans {a b c : World} (h : a.Drifts b) (h' : b.Drifts c) : a.Drifts c :=
  ⟨h'.history.trans h.history, h'.table.trans h.table, Nat.le_trans h.fresh h'.fresh⟩

theorem Quiet.drifts {w w' : World} (h : w.Quiet w') : w.Drifts w' :=
  ⟨h.history, h.table, Nat.le_of_eq h.fresh.symm⟩

/-- Moves that lead from one world to another. -/
inductive Along : World → List Move → World → Prop where
  | nil {w w' : World} (h : w.Drifts w') : Along w [] w'
  | cons {w w' : World} {m : Move} {moves : List Move} (h : w.Drifts m.before)
      (rest : Along m.after moves w') : Along w (m :: moves) w'

namespace Along
variable {u v w : World} {a b : List Move}

theorem of_drifts (h : u.Drifts v) (hb : Along v b w) : Along u b w := by
  cases hb with
  | nil h' => exact .nil (h.trans h')
  | cons h' rest => exact .cons (h.trans h') rest

theorem append (ha : Along u a v) (hb : Along v b w) : Along u (a ++ b) w := by
  induction ha with
  | nil h => exact hb.of_drifts h
  | cons h _ ih => exact .cons h (ih hb)

theorem within (side : Side) (h : Along u a v) : Along u (a.map (Move.within side)) v := by
  induction h with
  | nil h => exact .nil h
  | cons h _ ih => exact .cons h ih

end Along

/-- What does not fit into a pipe makes no difference to what a writer who is stopped leaves there. -/
theorem write_take {w : World} {h room n : Nat} (hr : w.room h = some room) (hn : room < n)
    (s : Bytes) : w.write h (s.take n) = w.write h s := by
  by_cases hs : s.length ≤ n
  · rw [List.take_of_length_le hs]
  have hlong : n < s.length := Nat.lt_of_not_le hs
  have htake : (s.take n).length = n := List.length_take_of_le (Nat.le_of_lt hlong)
  have hne : s.isEmpty = false := by
    cases s with
    | nil => simp at hlong
    | cons => rfl
  have hne' : (s.take n).isEmpty = false := by
    cases ht : s.take n with
    | nil => simp [ht] at htake; omega
    | cons => rfl
  unfold World.room at hr
  split at hr
  · next number offset append hf =>
    simp only [World.write, hne, hne', hf, Bool.false_eq_true, if_false]
    cases hp : w.pipe? number with
    | none => rfl
    | some p =>
      rw [hp] at hr
      have hroom : p.room = some room := hr
      simp only [hroom, htake, if_neg (Nat.not_le.mpr hn),
        if_neg (Nat.not_le.mpr (Nat.lt_trans hn hlong)), List.take_take,
        Nat.min_eq_left (Nat.le_of_lt hn)]
  · cases hr

theorem room_eq (w : World) (h : Nat) :
    w.room h = match (w.file? h).map OpenFile.source with
      | some (.pipe n) => ((w.pipe? n).getD {}).room
      | _ => none := by
  unfold room
  rcases w.file? h with _ | ⟨_ | n, offset, append⟩ <;> rfl

theorem room_consume (w : World) (source n target : Nat) :
    (w.consume source n).room target = w.room target := by
  have hsource : ((w.consume source n).file? target).map OpenFile.source =
      (w.file? target).map OpenFile.source := by
    unfold consume
    split
    · split
      · rw [file?_seek, Option.map_map]
        congr 1
        funext f
        dsimp only [Function.comp]
        split <;> rfl
      · rfl
      · split <;> rfl
    · rfl
  have hroom (number : Nat) : (((w.consume source n).pipe? number).getD {}).room =
      ((w.pipe? number).getD {}).room := by
    unfold consume
    split
    · split
      · rfl
      · rfl
      · next m _ =>
        split
        · next p hp =>
          rw [pipe?_setPipe]
          by_cases he : number = m
          · subst he
            simp [hp]
          · simp [he]
        · rfl
    · rfl
  rw [room_eq, room_eq, hsource]
  split
  · exact hroom _
  · rfl

/-- Copying at once takes a part of what there is and writes it. -/
theorem copy_eq_some (w : World) (source target : Nat) :
    ∃ n, w.copy source target =
      let s := (w.available source).take n
      (w.consume source s.length).write target s := by
  let s := w.available source
  have whole : (w.consume source s.length).write target s =
      (w.consume source (s.take s.length).length).write target (s.take s.length) := by
    rw [List.take_length]
  unfold copy
  dsimp only
  split
  · exact ⟨_, whole⟩
  · next room hr =>
    split
    · exact ⟨_, whole⟩
    · next hlong =>
      let n := min s.length ((room / Program.blockSize + 1) * Program.blockSize)
      have hblocks : room < (room / Program.blockSize + 1) * Program.blockSize :=
        Nat.lt_mul_of_div_lt (Nat.lt_add_one _) (by decide)
      have hn : room < n := Nat.lt_min.mpr ⟨Nat.lt_of_not_le hlong, hblocks⟩
      refine ⟨n, ?_⟩
      have hlength : (s.take n).length = n := List.length_take_of_le (Nat.min_le_left ..)
      change (w.consume source n).write target s = (w.consume source (s.take n).length).write target (s.take n)
      rw [hlength, write_take ((room_consume ..).trans hr) hn]

end World

namespace Behaviour
variable {α β : Type} {x : Behaviour α} {here middle there : Surroundings} {u v w : World} {a : α}

theorem run_bind {f : α → Behaviour β} {first rest : List Move} {b : β} (hx : x here first a middle)
    (hf : f a middle rest b there) : (x >>= f) here (first ++ rest) b there :=
  ⟨first, a, middle, rest, hx, hf, rfl⟩

theorem run_pure (a : α) (here : Surroundings) : (pure a : Behaviour α) here [] a here :=
  ⟨rfl, rfl, rfl⟩

theorem run_step (f : Nat → World → Step α) (choice : Nat) (here : Surroundings) (w : World) :
    step f here [⟨[], choice, w, (f choice w).world, (f choice w).news⟩] (f choice w).result here :=
  ⟨choice, w, rfl, rfl, rfl⟩

theorem run_both {y : Behaviour β} {left right moves : List Move} {b : β}
    (hx : x here.fork left a middle) (hy : y here.fork right b there)
    (h : Interleaving (left.map (Move.within .left)) (right.map (Move.within .right)) moves) :
    both x y here moves (a, b) here :=
  ⟨rfl, _, _, ⟨middle, left, hx, rfl⟩, ⟨there, right, hy, rfl⟩, h⟩

/-- How something can go in a world. -/
def Can (x : Behaviour α) (here : Surroundings) (w : World) (a : α) (there : Surroundings)
    (w' : World) : Prop :=
  ∃ moves, x here moves a there ∧ w.Along moves w'

theorem can_pure (here : Surroundings) (w : World) (a : α) :
    (pure a : Behaviour α).Can here w a here w :=
  ⟨[], run_pure a here, .nil (.refl w)⟩

theorem Can.bind {f : α → Behaviour β} {b : β} (hx : x.Can here u a middle v)
    (hf : (f a).Can middle v b there w) : (x >>= f).Can here u b there w := by
  obtain ⟨first, hfirst, hu⟩ := hx
  obtain ⟨rest, hrest, hv⟩ := hf
  exact ⟨first ++ rest, run_bind hfirst hrest, hu.append hv⟩

theorem Can.discard (h : x.Can here u a there v) :
    (discard x : Behaviour PUnit).Can here u ⟨⟩ there v :=
  h.bind (can_pure _ _ _)

/-- Others may be at work before and after. -/
theorem Can.drifts {w' : World} (h : x.Can here v a there w) (hb : u.Drifts v) (ha : w.Drifts w') :
    x.Can here u a there w' := by
  obtain ⟨moves, hm, hw⟩ := h
  refine ⟨moves, hm, .of_drifts hb ?_⟩
  simpa using hw.append (.nil ha)

theorem can_step (f : Nat → World → Step α) (choice : Nat) (here : Surroundings) (w : World) :
    (step f).Can here w (f choice w).result here (f choice w).world :=
  ⟨_, run_step f choice here w, .cons (.refl w) (.nil (.refl _))⟩

theorem can_look (f : World → α) (here : Surroundings) (w : World) :
    (look f).Can here w (f w) here w :=
  can_step (fun _ w => { result := f w, world := w }) 0 here w

theorem can_change (f : World → α × World) (here : Surroundings) (w : World) :
    (change f).Can here w (f w).1 here (f w).2 :=
  can_step (fun _ w => { result := (f w).1, world := (f w).2 }) 0 here w

theorem can_choose (n : Nat) (here : Surroundings) (w : World) : choose.Can here w n here w :=
  can_step (fun choice w => { result := choice, world := w }) n here w

theorem can_surroundings (here : Surroundings) (w : World) :
    surroundings.Can here w here here w :=
  ⟨[], ⟨rfl, rfl, rfl⟩, .nil (.refl w)⟩

theorem can_enter (here place : Surroundings) (w : World) : (enter place).Can here w () place w :=
  ⟨[], ⟨rfl, rfl⟩, .nil (.refl w)⟩

theorem Can.within (side : Side) (h : x.Can here u a there v) :
    (within side x).Can here u a there v := by
  obtain ⟨moves, hm, hw⟩ := h
  exact ⟨_, ⟨moves, hm, rfl⟩, hw.within side⟩

/-- The left one may be done before the right one begins. -/
theorem Can.both {y : Behaviour β} {b : β} {here : Surroundings}
    (hx : x.Can here.fork u a middle v) (hy : y.Can here.fork v b there w) :
    (both x y).Can here u (a, b) here w := by
  obtain ⟨left, hleft, hu⟩ := hx
  obtain ⟨right, hright, hv⟩ := hy
  exact ⟨_, run_both hleft hright (.append ..), (hu.within .left).append (hv.within .right)⟩

/-! Reading, writing and copying at once. -/

theorem can_read (h : Nat) (amount : Bytes → Nat) (here : Surroundings) (w : World) :
    (read h amount).Can here w (w.read h amount).1 here (w.read h amount).2 := by
  let s := w.available h
  have hn : min s.length (min (amount s) s.length - 0) = min (amount s) s.length := by omega
  have hread : (readSome h amount []).Can here w
      (s.take (min s.length (min (amount s) s.length - 0))) here
      (w.consume h (min s.length (min (amount s) s.length - 0))) :=
    can_step _ s.length here w
  rw [hn] at hread
  exact (can_choose 1 here w).bind (hread.bind (can_pure here _ _))

theorem run_write (h : Nat) (s : Bytes) (here : Surroundings) (w : World) :
    write h s here [⟨[], 0, w, w, []⟩, ⟨[], 0, w, (w.write h s).2, []⟩] (w.write h s).1 here :=
  run_bind (run_step (fun n w => { result := n, world := w }) 0 here w)
    (run_step (fun _ w => { result := (w.write h s).1, world := (w.write h s).2 }) 0 here w)

theorem can_write (h : Nat) (s : Bytes) (here : Surroundings) (w : World) :
    (write h s).Can here w (w.write h s).1 here (w.write h s).2 :=
  ⟨_, run_write h s here w, .cons (.refl w) (.cons (.refl w) (.nil (.refl _)))⟩

theorem can_copySome (source target n : Nat) (here : Surroundings) (w : World) :
    let s := (w.available source).take n
    let copied := (w.consume source s.length).write target s
    (copySome source target).Can here w copied.1 here copied.2 :=
  can_step _ n here w

theorem can_copy (source target : Nat) (here : Surroundings) (w : World) :
    (copy source target).Can here w (w.copy source target).1 here (w.copy source target).2 := by
  obtain ⟨n, hn⟩ := w.copy_eq_some source target
  rw [hn]
  refine (can_choose 1 here w).bind ((can_copySome source target n here w).bind ?_)
  cases ((w.consume source ((w.available source).take n).length).write target
    ((w.available source).take n)).1 with
  | true => exact can_pure ..
  | false => exact can_pure ..

end Behaviour

open Behaviour

/-- A program goes on if it is not stopped. -/
theorem Behaviour.Can.orKilled {x : Behaviour Bool} {here : Surroundings} {w : World}
    {p : Bool × World} (hx : x.Can here w p.1 here p.2) {next : Behaviour Outcome}
    {run : World → Outcome × World} (h : ∀ u, next.Can here u (run u).1 here (run u).2) :
    let after := match p with
      | (true, w) => run w
      | (false, w) => (Outcome.killed, w)
    Can (do if ← x then next else return .killed) here w after.1 here after.2 := by
  obtain ⟨_ | _, u⟩ := p
  · exact hx.bind (can_pure here u _)
  · exact hx.bind (h u)

/-- A program may do all that it does without a break. -/
theorem Program.can_behaviour (streams : Streams) (dir : Place) (p : Program) (here : Surroundings)
    (w : World) :
    (p.behaviour streams dir).Can here w (p.run streams dir w).1 here (p.run streams dir w).2 := by
  induction p generalizing w with
  | exit | die => exact can_pure ..
  | read amount next ih => exact (can_read streams.input amount here w).bind (ih _ _)
  | copy next ih => exact (can_copy streams.input streams.output here w).orKilled ih
  | print text next ih => exact (can_write streams.output text here w).orKilled ih
  | complain text next ih => exact (can_write streams.error text here w).orKilled ih
  | readFile path next ih => exact (can_look _ here w).bind (ih _ _)
  | remove path next ih =>
    exact (can_change (fun w => Program.change w fun d => d.remove dir path) here w).bind (ih _ _)
  | makeDirectory path next ih =>
    exact (can_change (fun w => Program.change w fun d => d.makeDirectory 0o755 dir path) here
      w).bind (ih _ _)

namespace Executor
variable (ex : Executor) (argv : List Bytes) (files : Redirections) (streams : Streams)
  (here : Surroundings) (w : World)

theorem can_say (text : Bytes) :
    (Concurrent.say ex streams text).Can here w () here
      ((ex.say streams text).run ⟨here, w⟩).2.world :=
  (can_write ..).discard

theorem can_record (e : Event) :
    (Concurrent.record ex e).Can here w () here (ex.recorder.record "event" e w) :=
  can_change (fun w => ((), ex.recorder.record "event" e w)) here w

theorem can_closeAll (handles : List Nat) :
    (Concurrent.closeAll handles).Can here w () here (handles.foldl World.close w) := by
  induction handles generalizing w with
  | nil => exact can_pure here w ()
  | cons handle rest ih => exact (can_step _ 0 here w).bind (ih (w.close handle))

theorem can_openPath (access : Disk.Access) (path : Bytes) :
    (Concurrent.openPath access path).Can here w (w.openPath access [] path).1 here
      (w.openPath access [] path).2 := by
  have hstep : (Concurrent.openPath access path).Can here w _ here _ := can_step _ 0 here w
  revert hstep
  rcases w.openPath access [] path with ⟨_ | _, _⟩ <;> exact id

/-- The run of one is a way in which the other can go. -/
def Realizes {α : Type} (x : Run α) (y : Behaviour α) : Prop :=
  ∀ s : Running, y.Can s.here s.world (x.run s).1 (x.run s).2.here (x.run s).2.world

theorem realizes_openTargets (list : List Target) (opened : List Nat) :
    Realizes (ex.openTargets argv list streams opened)
      (Concurrent.openTargets ex argv list streams opened) := by
  intro s
  induction list generalizing streams opened s with
  | nil => exact can_pure ..
  | cons target rest ih =>
    have hopen := can_openPath s.here s.world target.access (Path.resolve s.here.dir target.path)
    rcases ho : s.world.openPath target.access [] (Path.resolve s.here.dir target.path) with
      ⟨e | handle, world⟩ <;> rw [ho] at hopen
    · rw [run_openTargets_error ho]
      refine (can_surroundings ..).bind (hopen.bind ?_)
      exact (ex.can_say ..).bind ((ex.can_record ..).bind ((can_closeAll ..).bind (can_pure ..)))
    · rw [run_openTargets_ok ho]
      exact (can_surroundings ..).bind (hopen.bind (ih _ _ { s with world }))

theorem realizes_redirected {body : Streams → Run Status} {behaviour : Streams → Behaviour Status}
    (h : ∀ inner, Realizes (body inner) (behaviour inner)) :
    Realizes (ex.redirected argv files streams body)
      (Concurrent.redirected ex argv files streams behaviour) := by
  intro s
  have htargets := ex.realizes_openTargets argv streams (targets files) [] s
  rw [run_redirected]
  generalize (ex.openTargets argv (targets files) streams []).run s = p at htargets ⊢
  obtain ⟨_ | ⟨inner, opened⟩, after⟩ := p
  · exact htargets.bind (can_pure ..)
  · exact htargets.bind ((h inner after).bind ((can_closeAll ..).bind (can_pure ..)))

theorem realizes_notStarted (subject reason : Bytes) (status : Status) :
    Realizes (ex.notStarted streams argv subject reason status)
      (Concurrent.notStarted ex streams argv subject reason status) := fun _ =>
  (ex.can_say ..).bind ((ex.can_record ..).bind (can_pure ..))

theorem realizes_spawn : Realizes (ex.spawn streams argv) (Concurrent.spawn ex streams argv) := by
  intro s
  have hlook := can_look (fun w => Search.lookup w.disk s.here.env s.here.dir (argv.headD []))
    s.here s.world
  rw [run_spawn]
  refine (can_surroundings ..).bind (hlook.bind ?_)
  cases Search.lookup s.world.disk s.here.env s.here.dir (argv.headD []) with
  | error e => exact ex.realizes_notStarted ..
  | ok path =>
    have hlaunch : (Concurrent.launch ex path argv s.here).Can s.here s.world _ s.here _ :=
      can_step _ 0 s.here s.world
    refine Can.bind hlaunch ?_
    dsimp only
    cases Launch.prepare s.world.disk s.here.dir path argv s.here.env.listing with
    | error e => exact ex.realizes_notStarted ..
    | ok invocation =>
      dsimp only
      cases ex.shortage invocation with
      | some e => exact ex.realizes_notStarted ..
      | none =>
        rw [run_runProgram]
        exact Can.bind (((ex.can_record ..).both (Program.can_behaviour ..)))
          ((can_step _ 0 ..).bind ((ex.can_record ..).bind (can_pure ..)))

theorem realizes_builtin (b : Builtin) :
    Realizes (ex.builtin streams argv b) (Concurrent.builtin ex streams argv b) := by
  intro s
  cases b with
  | cd =>
    have hlook := can_look (fun w => ChangeDirectory.run w.disk s.here argv.tail) s.here s.world
    rw [run_cd]
    refine (can_surroundings ..).bind (hlook.bind ?_)
    cases ChangeDirectory.run s.world.disk s.here argv.tail with
    | ok moved =>
      exact (can_enter ..).bind ((can_write ..).discard.bind ((ex.can_record ..).bind
        (can_pure ..)))
    | error e => exact (ex.can_say ..).bind ((ex.can_record ..).bind (can_pure ..))

theorem realizes_plain :
    Realizes (ex.plain argv files streams) (Concurrent.plain ex argv files streams) := by
  cases argv with
  | nil => exact fun s => (ex.can_say ..).bind (can_pure ..)
  | cons name args =>
    intro s
    rw [run_plain_cons, Concurrent.plain]
    cases Builtin.ofName? name with
    | some b => exact ex.realizes_builtin (name :: args) streams b s
    | none =>
      exact ex.realizes_redirected (name :: args) files streams
        (fun inner => ex.realizes_spawn (name :: args) inner) s

theorem realizes_reportSide (name : Bytes) (status : Status) :
    Realizes (ex.reportSide streams name status)
      (Concurrent.reportSide ex streams name status) := by
  intro s
  rw [run_reportSide, Concurrent.reportSide]
  split
  · exact ex.can_say ..
  · exact can_pure ..

/-! Pipes. -/

/-- What fits into a pipe may change once the pipe is there. -/
theorem can_openPipe (room : Option Nat) :
    Concurrent.openPipe.Can here w (w.openPipe room).1 here (w.openPipe room).2 := by
  have hstep : Concurrent.openPipe.Can here w _ here _ := can_step _ 0 here w
  have hdrift : (w.openPipe none).1 = (w.openPipe room).1 ∧
      (w.openPipe none).2.Drifts (w.openPipe room).2 := by
    unfold World.openPipe
    dsimp only
    cases w.request.1
    · exact ⟨rfl, rfl, rfl, Nat.le_refl _⟩
    · exact ⟨rfl, .refl _⟩
  rw [← hdrift.1]
  refine Can.drifts ?_ (.refl w) hdrift.2
  revert hstep
  rcases w.openPipe none with ⟨_ | _, _⟩ <;> exact id

section
variable {ex streams}

theorem can_side {x : Run Status} {y : Behaviour Status} (h : Realizes x y) (handle : Nat)
    (s : Running) :
    (Concurrent.side y handle).Can s.here s.world (Status.exitCode (x.run s).1) (x.run s).2.here
      ((x.run s).2.world.close handle) :=
  (h s).bind ((can_step _ 0 ..).bind (can_pure ..))

/-- The left side is done before the right one begins, and how much it may leave unread is settled
when the pipe is there. -/
theorem realizes_pipe {left right : Streams → Run Status} {left' right' : Streams → Behaviour Status}
    (hl : ∀ inner, Realizes (left inner) (left' inner))
    (hr : ∀ inner, Realizes (right inner) (right' inner)) :
    Realizes (ex.pipe left right streams) (Concurrent.pipe ex left' right' streams) := by
  intro s
  rw [run_pipe, pipeResult, pipeWith]
  generalize pipeRoom streams s left right = room
  have hopen := can_openPipe s.here s.world room
  generalize s.world.openPipe room = p at hopen ⊢
  obtain ⟨_ | ends, opened⟩ := p
  · exact hopen.bind ((ex.can_say ..).bind (can_pure ..))
  · have hleft := can_side (hl { streams with output := ends.write }) ends.write ⟨s.here.fork, opened⟩
    have hlast := hleft.drifts (.refl _) (World.quiet_unbind _ ends.number).drifts
    have hright := can_side (hr { streams with input := ends.read }) ends.read
      ⟨s.here.fork, leftSide left streams s.here ends opened⟩
    exact hopen.bind ((hlast.both hright).bind ((can_change _ ..).bind (can_pure ..)))

end

/-- The run of a tree in which the left side of every pipe is done before the right one begins is one
of those in which both are at work. -/
theorem realizes_execute (t : Tree) (streams : Streams) :
    Realizes (ex.execute t streams) (Concurrent.execute ex t streams) := by
  induction t generalizing streams with
  | absent => exact fun s => (ex.can_say ..).bind (can_pure ..)
  | node kind argv files l r ihl ihr =>
    intro s
    cases kind with
    | plain => exact ex.realizes_plain argv files streams s
    | sequence =>
      rw [run_sequence]
      exact ((ihl streams s).within .left).bind ((ex.realizes_reportSide ..).bind
        (((ihr streams _).within .right).bind ((ex.realizes_reportSide ..).bind (can_pure ..))))
    | and | or =>
      simp only [run_and, run_or]
      refine ((ihl streams s).within .left).bind ?_
      split
      · exact can_pure ..
      · exact (ihr streams _).within .right
    | pipe => exact realizes_pipe ihl ihr s
    | subshell =>
      rw [run_subshell, Concurrent.execute]
      refine ex.realizes_redirected argv files streams (fun inner s => ?_) s
      exact ((ihl inner s).within .left).bind (can_pure ..)
    | unknown => exact (ex.can_say ..).bind (can_pure ..)

end Executor

/-! What a pipe comes to. -/

namespace Executor
variable {left right : Behaviour Status} {lefts rights moves : List Move} {status : Status}
  {place : Surroundings}

theorem run_side (h : left place lefts status place) (handle : Nat) (w : World) :
    Concurrent.side left handle place
      (lefts ++ [⟨[], 0, w, w.close handle, [⟨[], .closed handle⟩]⟩]) (Status.exitCode status) place :=
  run_bind h (run_bind (run_step _ 0 place w) (run_pure _ place))

end Executor

namespace Behaviour
variable {α β : Type} {x : Behaviour α}

/-- Something done by a node itself that changes no surroundings. -/
structure InPlace (x : Behaviour α) : Prop where
  of_run : ∀ {here moves a there}, x here moves a there →
    there = here ∧ ∀ m ∈ moves, m.position = []

theorem inPlace_pure (a : α) : InPlace (pure a) where
  of_run := by
    rintro here moves _ there ⟨rfl, rfl, rfl⟩
    exact ⟨rfl, by simp⟩

theorem InPlace.bind {f : α → Behaviour β} (hx : InPlace x) (hf : ∀ a, InPlace (f a)) :
    InPlace (x >>= f) where
  of_run := by
    rintro here moves b there ⟨first, a, middle, rest, hfirst, hrest, rfl⟩
    obtain ⟨rfl, hm⟩ := hx.of_run hfirst
    obtain ⟨rfl, hn⟩ := (hf a).of_run hrest
    exact ⟨rfl, List.forall_mem_append.mpr ⟨hm, hn⟩⟩

theorem inPlace_step (f : Nat → World → Step α) : InPlace (step f) where
  of_run := by
    rintro here moves _ there ⟨choice, w, rfl, rfl, rfl⟩
    exact ⟨rfl, by simp⟩

theorem inPlace_write (h : Nat) (s : Bytes) : InPlace (write h s) := by
  refine (inPlace_step _).bind fun n => ?_
  induction n generalizing s with
  | zero => exact inPlace_step _
  | succ n ih =>
    refine (inPlace_step _).bind fun p => ?_
    obtain ⟨_ | _, rest⟩ := p
    · exact inPlace_pure false
    · exact ih rest

end Behaviour

namespace Executor
variable {ex : Executor} {streams : Streams} {here : Surroundings}

theorem inPlace_say (text : Bytes) : InPlace (Concurrent.say ex streams text) :=
  (inPlace_write ..).bind fun _ => inPlace_pure ()

/-- How a pipe goes. It is refused, or both sides run in copies of the shell's surroundings, their moves
come in any order, and the right side has the last word. -/
inductive PipeRun (ex : Executor) (left right : Streams → Behaviour Status) (streams : Streams)
    (here : Surroundings) : List Move → Status → Prop where
  | refused {opening told : List Move} (hopen : Concurrent.openPipe here opening none here)
      (hsay : Concurrent.say ex streams ("pipe: pipe2: " ++ PathError.tooManyFiles.message) here told ()
        here) : PipeRun ex left right streams here (opening ++ told) Status.unknown
  | made {ends : World.PipeEnds} {opening lefts rights moves closing : List Move}
      {ignored status : Status} {place place' : Surroundings}
      (hopen : Concurrent.openPipe here opening (some ends) here)
      (hleft : Concurrent.side (left { streams with output := ends.write }) ends.write here.fork lefts
        ignored place)
      (hright : Concurrent.side (right { streams with input := ends.read }) ends.read here.fork rights
        status place')
      (hmoves : Interleaving (lefts.map (Move.within .left)) (rights.map (Move.within .right)) moves)
      (hclosing : change (fun w => ((), w.dropPipe ends.number)) here closing () here) :
      PipeRun ex left right streams here (opening ++ (moves ++ closing)) status

theorem pipeRun_of_pipe {left right : Streams → Behaviour Status} {moves : List Move} {status : Status}
    {there : Surroundings} (h : Concurrent.pipe ex left right streams here moves status there) :
    there = here ∧ PipeRun ex left right streams here moves status := by
  obtain ⟨opening, result, middle, rest, hopen, hrest, rfl⟩ := h
  obtain ⟨rfl, -⟩ := InPlace.of_run (inPlace_step _) hopen
  cases result with
  | none =>
    obtain ⟨told, _, place, _, hsay, ⟨rfl, rfl, rfl⟩, rfl⟩ := hrest
    obtain ⟨rfl, -⟩ := (inPlace_say _).of_run hsay
    rw [List.append_nil]
    exact ⟨rfl, .refused hopen hsay⟩
  | some ends =>
    obtain ⟨both, ⟨ignored, status⟩, _, _, hboth, hlast, rfl⟩ := hrest
    obtain ⟨rfl, _, _, ⟨place, lefts, hleft, rfl⟩, ⟨place', rights, hright, rfl⟩, hmoves⟩ := hboth
    obtain ⟨closing, _, _, _, hclosing, ⟨rfl, rfl, rfl⟩, rfl⟩ := hlast
    obtain ⟨rfl, -⟩ := InPlace.of_run (inPlace_step _) hclosing
    rw [List.append_nil]
    exact ⟨rfl, .made hopen hleft hright hmoves hclosing⟩

end Executor

end CommandShell
