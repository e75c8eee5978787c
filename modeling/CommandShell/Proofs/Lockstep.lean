import CommandShell.Proofs.AlikeWorlds
import CommandShell.Proofs.ConcurrentRun

/-! Two runs in lockstep. As long as the moves of the one find worlds that look like those that the moves
of the other find, and the system gives them the same answers, both do the same. -/
namespace CommandShell

inductive News.Alike (T : Matching) : News → News → Prop where
  | opened (p : TreePosition) {h h' : Nat} (hT : T.pairs h h') : Alike T ⟨p, .opened h⟩ ⟨p, .opened h'⟩
  | closed (p : TreePosition) {h h' : Nat} (hT : T.pairs h h') : Alike T ⟨p, .closed h⟩ ⟨p, .closed h'⟩
  | began (p : TreePosition) (n : Nat) : Alike T ⟨p, .began n⟩ ⟨p, .began n⟩
  | ended (p : TreePosition) (n : Nat) : Alike T ⟨p, .ended n⟩ ⟨p, .ended n⟩

theorem News.Alike.within {T : Matching} {n n' : News} (h : n.Alike T n') (side : Side) :
    (n.within side).Alike T (n'.within side) := by
  cases h with
  | opened _ hT => exact .opened _ hT
  | closed _ hT => exact .closed _ hT
  | began _ n => exact .began _ n
  | ended _ n => exact .ended _ n

/-- Worlds that look alike, in which it is as late and the same request is refused, and which give
numbers that go together on the way to a later world. -/
structure World.Faces (T : Matching) (w later w' : World) : Prop extends LooksLike T w w' where
  clock : w'.clock = w.clock
  refusal : w'.request.1 = w.request.1
  numbers : ∀ n, w.fresh + n < later.fresh → T.pairs (w.fresh + n) (w'.fresh + n)
  command : w.started < later.started → w'.started = w.started

namespace Move

/-- Two moves at the same place that find the same, and for which the system chooses the same. -/
structure Facing (T : Matching) (m m' : Move) : Prop where
  position : m'.position = m.position
  choice : m'.choice = m.choice
  worlds : m.before.Faces T m.after m'.before

/-- Two moves that do the same: the worlds still look alike afterwards, and the same was recorded. -/
structure Alike (T : Matching) (m m' : Move) : Prop where
  position : m'.position = m.position
  news : List.Forall₂ (News.Alike T) m.news m'.news
  effect : m.after.Alike (m.before, m'.before) T m'.after

variable {T : Matching} {m m' : Move}

theorem Facing.of_within {side : Side} (h : (m.within side).Facing T (m'.within side)) :
    m.Facing T m' :=
  { h with position := (List.cons.inj h.position).2 }

theorem Alike.within (h : m.Alike T m') (side : Side) : (m.within side).Alike T (m'.within side) where
  position := congrArg (side :: ·) h.position
  news := List.forall₂_map_left_iff.mpr
    (List.forall₂_map_right_iff.mpr (h.news.imp fun _ _ hn => hn.within side))
  effect := h.effect

end Move

namespace Interleaving
variable {α : Type} {P : α → Prop} {xs ys zs xs' ys' zs' : List α}

/-- Where two sequences take from the same sides, what one side does in both stands face to face. -/
theorem mem_zip (h : Interleaving xs ys zs) (h' : Interleaving xs' ys' zs')
    (hx : ∀ x ∈ xs ++ xs', P x) (hy : ∀ y ∈ ys ++ ys', ¬ P y)
    (hP : ∀ p ∈ zs.zip zs', P p.1 ↔ P p.2) {p : α × α} (hp : p ∈ xs.zip xs' ∨ p ∈ ys.zip ys') :
    p ∈ zs.zip zs' := by
  induction h generalizing xs' ys' zs' with
  | nil => simp at hp
  | @left xs ys zs x h ih =>
    cases h' with
    | nil => simp at hp
    | left x' h' =>
      rw [List.zip_cons_cons] at hP hp ⊢
      rcases hp with hp | hp
      · rcases List.mem_cons.mp hp with rfl | hp
        · exact List.mem_cons_self
        · exact List.mem_cons_of_mem _ (ih h' (by grind) (by grind) (by grind) (.inl hp))
      · exact List.mem_cons_of_mem _ (ih h' (by grind) (by grind) (by grind) (.inr hp))
    | right y' h' => exact absurd ((hP _ List.mem_cons_self).mp (hx x (by simp))) (hy y' (by simp))
  | @right xs ys zs y h ih =>
    cases h' with
    | nil => simp at hp
    | left x' h' => exact absurd ((hP _ List.mem_cons_self).mpr (hx x' (by simp))) (hy y (by simp))
    | right y' h' =>
      rw [List.zip_cons_cons] at hP hp ⊢
      rcases hp with hp | hp
      · exact List.mem_cons_of_mem _ (ih h' (by grind) (by grind) (by grind) (.inl hp))
      · rcases List.mem_cons.mp hp with rfl | hp
        · exact List.mem_cons_self
        · exact List.mem_cons_of_mem _ (ih h' (by grind) (by grind) (by grind) (.inr hp))

theorem forall₂ {R : α → α → Prop} (h : Interleaving xs ys zs) (h' : Interleaving xs' ys' zs')
    (hx : ∀ x ∈ xs ++ xs', P x) (hy : ∀ y ∈ ys ++ ys', ¬ P y)
    (hP : ∀ p ∈ zs.zip zs', P p.1 ↔ P p.2) (hxs : List.Forall₂ R xs xs')
    (hys : List.Forall₂ R ys ys') : List.Forall₂ R zs zs' := by
  induction h generalizing xs' ys' zs' with
  | nil =>
    cases hxs
    cases hys
    cases h'
    exact .nil
  | @left xs ys zs x h ih =>
    cases h' with
    | nil => cases hxs
    | left x' h' =>
      obtain ⟨hhead, htail⟩ := List.forall₂_cons.mp hxs
      exact .cons hhead (ih h' (by grind) (by grind) (by grind) htail hys)
    | right y' h' => exact absurd ((hP _ List.mem_cons_self).mp (hx x (by simp))) (hy y' (by simp))
  | @right xs ys zs y h ih =>
    cases h' with
    | nil => cases hys
    | left x' h' => exact absurd ((hP _ List.mem_cons_self).mpr (hx x' (by simp))) (hy y (by simp))
    | right y' h' =>
      obtain ⟨hhead, htail⟩ := List.forall₂_cons.mp hys
      exact .cons hhead (ih h' (by grind) (by grind) (by grind) hxs htail)

end Interleaving

theorem mem_zip_append {α β : Type} {xs more : List α} {ys rest : List β} {p : α × β}
    (h : p ∈ xs.zip ys) : p ∈ (xs ++ more).zip (ys ++ rest) := by
  induction xs generalizing ys with
  | nil => simp at h
  | cons x xs ih =>
    cases ys with
    | nil => simp at h
    | cons y ys =>
      rcases List.mem_cons.mp h with rfl | h
      · exact List.mem_cons_self
      · exact List.mem_cons_of_mem _ (ih h)

namespace Behaviour
variable {α β γ δ : Type} {T : Matching} {R : α → β → Prop} {S : γ → δ → Prop} {x : Behaviour α}
  {y : Behaviour β}

/-- Runs that start in the same surroundings do the same as long as they find the same. -/
structure Lockstep (T : Matching) (R : α → β → Prop) (x : Behaviour α) (y : Behaviour β) : Prop where
  of_runs : ∀ {here moves a there moves' b there'}, x here moves a there → y here moves' b there' →
    (∀ p ∈ moves.zip moves', p.1.Facing T p.2) →
    R a b ∧ there' = there ∧ List.Forall₂ (Move.Alike T) moves moves'

theorem lockstep_pure {a : α} {b : β} (h : R a b) : Lockstep T R (pure a) (pure b) where
  of_runs := by
    rintro here moves _ there moves' _ there' ⟨rfl, rfl, rfl⟩ ⟨rfl, rfl, rfl⟩ -
    exact ⟨h, rfl, .nil⟩

theorem Lockstep.bind {f : α → Behaviour γ} {g : β → Behaviour δ} (hx : Lockstep T R x y)
    (hf : ∀ a b, R a b → Lockstep T S (f a) (g b)) : Lockstep T S (x >>= f) (y >>= g) where
  of_runs := by
    rintro here moves c there moves' d there' ⟨first, a, middle, rest, hfirst, hrest, rfl⟩
      ⟨first', b, middle', rest', hfirst', hrest', rfl⟩ hfacing
    obtain ⟨hab, rfl, hmoves⟩ := hx.of_runs hfirst hfirst' fun p hp =>
      hfacing p (mem_zip_append hp)
    rw [List.zip_append hmoves.length_eq] at hfacing
    obtain ⟨hcd, rfl, hlast⟩ := (hf a b hab).of_runs hrest hrest' fun p hp =>
      hfacing p (List.mem_append_right _ hp)
    exact ⟨hcd, rfl, List.rel_append hmoves hlast⟩

theorem Lockstep.discard (hx : Lockstep T R x y) :
    Lockstep T Eq (discard x : Behaviour Unit) (discard y) :=
  hx.bind fun _ _ _ => lockstep_pure rfl

theorem lockstep_step {f : Nat → World → Step α} {g : Nat → World → Step β}
    (h : ∀ choice (w w' : World), w.Faces T (f choice w).world w' →
      R (f choice w).result (g choice w').result ∧
        List.Forall₂ (News.Alike T) (f choice w).news (g choice w').news ∧
        (f choice w).world.Alike (w, w') T (g choice w').world) :
    Lockstep T R (step f) (step g) where
  of_runs := by
    rintro here moves a there moves' b there' ⟨choice, w, rfl, rfl, rfl⟩ ⟨choice', w', rfl, rfl, rfl⟩
      hfacing
    have hm := hfacing _ List.mem_cons_self
    obtain rfl : choice' = choice := hm.choice
    obtain ⟨hab, hnews, heffect⟩ := h choice' w w' hm.worlds
    exact ⟨hab, rfl, .cons ⟨rfl, hnews, heffect⟩ .nil⟩

/-- A move that opens, closes, begins and ends nothing. -/
theorem lockstep_quiet {f : Nat → World → α × World} {g : Nat → World → β × World}
    (h : ∀ choice {w w' : World}, w.LooksLike T w' → w'.clock = w.clock →
      R (f choice w).1 (g choice w').1 ∧ (f choice w).2.Alike (w, w') T (g choice w').2) :
    Lockstep T R (step fun choice w => { result := (f choice w).1, world := (f choice w).2 })
      (step fun choice w => { result := (g choice w).1, world := (g choice w).2 }) :=
  lockstep_step fun choice _ _ hw =>
    have hstep := h choice hw.toLooksLike hw.clock
    ⟨hstep.1, .nil, hstep.2⟩

theorem lockstep_look {f : World → α} {g : World → β}
    (h : ∀ {w w' : World}, w.LooksLike T w' → R (f w) (g w')) : Lockstep T R (look f) (look g) :=
  lockstep_quiet (f := fun _ w => (f w, w)) (g := fun _ w => (g w, w)) fun _ _ _ hw _ =>
    ⟨h hw, hw.alike⟩

theorem lockstep_change {f : World → α × World} {g : World → β × World}
    (h : ∀ {w w' : World}, w.LooksLike T w' → w'.clock = w.clock →
      R (f w).1 (g w').1 ∧ (f w).2.Alike (w, w') T (g w').2) :
    Lockstep T R (change f) (change g) :=
  lockstep_quiet (f := fun _ w => f w) (g := fun _ w => g w) fun _ _ _ => h

theorem lockstep_choose : Lockstep T Eq choose choose :=
  lockstep_quiet (f := fun n w => (n, w)) (g := fun n w => (n, w)) fun _ _ _ hw _ => ⟨rfl, hw.alike⟩

theorem lockstep_surroundings : Lockstep T Eq surroundings surroundings where
  of_runs := by
    rintro here moves a there moves' b there' ⟨rfl, rfl, rfl⟩ ⟨rfl, rfl, rfl⟩ -
    exact ⟨rfl, rfl, .nil⟩

theorem lockstep_enter (place : Surroundings) : Lockstep T Eq (enter place) (enter place) where
  of_runs := by
    rintro here moves a there moves' b there' ⟨rfl, rfl⟩ ⟨rfl, rfl⟩ -
    exact ⟨rfl, rfl, .nil⟩

theorem Lockstep.within (h : Lockstep T R x y) (side : Side) :
    Lockstep T R (within side x) (within side y) where
  of_runs := by
    rintro here moves a there moves' b there' ⟨inner, hinner, rfl⟩ ⟨inner', hinner', rfl⟩ hfacing
    obtain ⟨hab, hthere, hmoves⟩ := h.of_runs hinner hinner' fun p hp => by
      refine (hfacing (p.1.within side, p.2.within side) ?_).of_within
      rw [List.zip_map]
      exact List.mem_map_of_mem (f := Prod.map (Move.within side) (Move.within side)) hp
    exact ⟨hab, hthere, List.forall₂_map_left_iff.mpr
      (List.forall₂_map_right_iff.mpr (hmoves.imp fun _ _ hm => hm.within side))⟩

/-- The moves of the left side are those at a place on the left. -/
def OnLeft (m : Move) : Prop := m.position.head? = some .left

theorem Lockstep.both {x' : Behaviour γ} {y' : Behaviour δ} (hx : Lockstep T R x y)
    (hy : Lockstep T S x' y') :
    Lockstep T (fun c d => R c.1 d.1 ∧ S c.2 d.2) (both x x') (both y y') where
  of_runs := by
    rintro here moves c there moves' d there'
      ⟨rfl, left, right, ⟨place, hleft⟩, ⟨other, hright⟩, hmoves⟩
      ⟨rfl, left', right', ⟨place', hleft'⟩, ⟨other', hright'⟩, hmoves'⟩ hfacing
    have honLeft : ∀ m ∈ left ++ left', OnLeft m := by
      obtain ⟨inner, -, rfl⟩ := hleft
      obtain ⟨inner', -, rfl⟩ := hleft'
      rw [← List.map_append]
      exact List.forall_mem_map.mpr fun _ _ => rfl
    have honRight : ∀ m ∈ right ++ right', ¬ OnLeft m := by
      obtain ⟨inner, -, rfl⟩ := hright
      obtain ⟨inner', -, rfl⟩ := hright'
      rw [← List.map_append]
      exact List.forall_mem_map.mpr fun _ _ he => by cases he
    have hsides : ∀ p ∈ moves.zip moves', OnLeft p.1 ↔ OnLeft p.2 := fun p hp => by
      rw [OnLeft, OnLeft, (hfacing p hp).position]
    obtain ⟨hac, -, hls⟩ := (hx.within .left).of_runs hleft hleft' fun p hp =>
      hfacing p (hmoves.mem_zip hmoves' honLeft honRight hsides (.inl hp))
    obtain ⟨hbd, -, hrs⟩ := (hy.within .right).of_runs hright hright' fun p hp =>
      hfacing p (hmoves.mem_zip hmoves' honLeft honRight hsides (.inr hp))
    exact ⟨⟨hac, hbd⟩, rfl, hmoves.forall₂ hmoves' honLeft honRight hsides hls hrs⟩

/-! Reading and writing. -/

variable {h h' : Nat}

theorem lockstep_read (hT : T.pairs h h') (amount : Bytes → Nat) :
    Lockstep T Eq (read h amount) (read h' amount) := by
  refine lockstep_choose.bind ?_
  rintro n _ rfl
  generalize [] = got
  induction n generalizing got with
  | zero => exact lockstep_pure rfl
  | succ n ih =>
    refine Lockstep.bind (R := Eq) (lockstep_step fun choice w w' hw => ?_) ?_
    · dsimp only
      rw [hw.alike.available hT]
      exact ⟨rfl, .nil, hw.alike.consume hT _⟩
    · rintro got _ rfl
      exact ih got

theorem lockstep_copy {k k' : Nat} (hT : T.pairs h h') (hT' : T.pairs k k') :
    Lockstep T Eq (copy h k) (copy h' k') := by
  refine lockstep_choose.bind ?_
  rintro n _ rfl
  induction n with
  | zero => exact lockstep_pure rfl
  | succ n ih =>
    refine Lockstep.bind (R := Eq) (lockstep_step fun choice w w' hw => ?_) ?_
    · obtain ⟨halive, hwrite⟩ := (hw.alike.consume hT
        ((w.available h).take choice).length).write hT' ((w.available h).take choice)
      dsimp only
      rw [hw.alike.available hT]
      exact ⟨halive.symm, .nil, hwrite⟩
    · rintro alive _ rfl
      cases alive
      · exact lockstep_pure rfl
      · exact ih

theorem lockstep_write (hT : T.pairs h h') (s : Bytes) : Lockstep T Eq (write h s) (write h' s) := by
  refine lockstep_choose.bind ?_
  rintro n _ rfl
  induction n generalizing s with
  | zero =>
    refine lockstep_change fun hw _ => ?_
    obtain ⟨halive, hwrite⟩ := hw.alike.write hT s
    exact ⟨halive.symm, hwrite⟩
  | succ n ih =>
    refine Lockstep.bind (R := Eq) (lockstep_step fun choice w w' hw => ?_) ?_
    · obtain ⟨halive, hwrite⟩ := hw.alike.write hT (s.take choice)
      exact ⟨Prod.ext halive.symm rfl, .nil, hwrite⟩
    · rintro ⟨alive, rest⟩ _ rfl
      cases alive
      · exact lockstep_pure rfl
      · exact ih rest

end Behaviour

open Behaviour

section
variable {T : Matching} {streams streams' : Streams}

/-- A program does the same in both runs. -/
theorem Program.lockstep_behaviour (hs : streams.Alike T streams') (dir : Place) (p : Program) :
    Lockstep T Eq (p.behaviour streams dir) (p.behaviour streams' dir) := by
  have unlessKilled {x y : Behaviour Bool} {next next' : Behaviour Outcome} (h : Lockstep T Eq x y)
      (hnext : Lockstep T Eq next next') :
      Lockstep T Eq (do if ← x then next else return .killed)
        (do if ← y then next' else return .killed) := by
    refine h.bind ?_
    rintro alive _ rfl
    cases alive
    · exact lockstep_pure rfl
    · exact hnext
  have change (f : Disk → Except PathError Disk) {next next' : Bool → Behaviour Outcome}
      (hnext : ∀ done, Lockstep T Eq (next done) (next' done)) :
      Lockstep T Eq (Behaviour.change (fun w => Program.change w f) >>= next)
        (Behaviour.change (fun w => Program.change w f) >>= next') := by
    refine Lockstep.bind (R := Eq) (lockstep_change fun hw _ => ?_) ?_
    · obtain ⟨hdone, hdisk⟩ := hw.alike.change f
      exact ⟨hdone.symm, hdisk⟩
    · rintro done _ rfl
      exact hnext done
  induction p with
  | exit | die => exact lockstep_pure rfl
  | read amount next ih =>
    refine (lockstep_read hs.input amount).bind ?_
    rintro s _ rfl
    exact ih s
  | copy next ih => exact unlessKilled (lockstep_copy hs.input hs.output) ih
  | print text next ih => exact unlessKilled (lockstep_write hs.output text) ih
  | complain text next ih => exact unlessKilled (lockstep_write hs.error text) ih
  | readFile path next ih =>
    refine Lockstep.bind (R := Eq) (lockstep_look fun hw => by rw [hw.disk]) ?_
    rintro data _ rfl
    exact ih data
  | remove path next ih | makeDirectory path next ih => exact change _ ih

end

/-! The executor. -/

namespace Executor

inductive OpenedAlike (T : Matching) : Except PathError Nat → Except PathError Nat → Prop where
  | error (e : PathError) : OpenedAlike T (.error e) (.error e)
  | ok {h h' : Nat} (hT : T.pairs h h') : OpenedAlike T (.ok h) (.ok h')

structure EndsAlike (T : Matching) (ends ends' : World.PipeEnds) : Prop where
  number : T.pairs ends.number ends'.number
  read : T.pairs ends.read ends'.read
  write : T.pairs ends.write ends'.write

/-- Streams that a redirection made, with the files that it opened for them. -/
structure RedirectedAlike (T : Matching) (p p' : Streams × List Nat) : Prop where
  streams : p.1.Alike T p'.1
  opened : List.Forall₂ T.pairs p.2 p'.2

variable {T : Matching}

theorem lockstep_openPath (access : Disk.Access) (path : Bytes) :
    Lockstep T (OpenedAlike T) (Concurrent.openPath access path) (Concurrent.openPath access path) := by
  refine lockstep_step fun choice w w' hw => ?_
  obtain ⟨e, u, u', ho, ho', hu⟩ | ⟨u, u', ho, ho', hfresh, hu⟩ :=
    hw.alike.openPath hw.refusal access [] path
  · simp only [ho, ho']
    exact ⟨.error e, .nil, hu⟩
  · simp only [ho, ho'] at hw ⊢
    have hT : T.pairs w.fresh w'.fresh := hw.numbers 0 (by omega)
    exact ⟨.ok hT, .cons (.opened [] hT) .nil, hu hT⟩

theorem lockstep_close {h h' : Nat} (hT : T.pairs h h') :
    Lockstep T Eq (Concurrent.close h) (Concurrent.close h') :=
  lockstep_step fun _ _ _ hw => ⟨rfl, .cons (.closed [] hT) .nil, hw.alike.close hT⟩

theorem lockstep_closeAll {handles handles' : List Nat} (h : List.Forall₂ T.pairs handles handles') :
    Lockstep T Eq (Concurrent.closeAll handles) (Concurrent.closeAll handles') := by
  induction h with
  | nil => exact lockstep_pure rfl
  | cons hT _ ih => exact (lockstep_close hT).bind fun _ _ _ => ih

theorem lockstep_openPipe : Lockstep T (Option.Rel (EndsAlike T)) Concurrent.openPipe
    Concurrent.openPipe := by
  refine lockstep_step fun choice w w' hw => ?_
  obtain ⟨u, u', ho, ho', hu⟩ | ⟨u, u', ho, ho', hfresh, hu⟩ := hw.alike.openPipe hw.refusal none
  · simp only [ho, ho']
    exact ⟨.none, .nil, hu⟩
  · simp only [ho, ho'] at hw ⊢
    have hT : ∀ n < 3, T.pairs (w.fresh + n) (w'.fresh + n) := fun n hn => hw.numbers n (by omega)
    have hread := hT 1 (by decide)
    have hwrite := hT 2 (by decide)
    exact ⟨.some ⟨hT 0 (by decide), hread, hwrite⟩,
      .cons (.opened [.right] hread) (.cons (.opened [.left] hwrite) .nil), hu hT⟩

theorem lockstep_hearEnd (number : Nat) :
    Lockstep T Eq (Concurrent.hearEnd number) (Concurrent.hearEnd number) :=
  lockstep_step fun _ _ _ hw => ⟨rfl, .cons (.ended [] number) .nil, hw.alike.tell ..⟩

variable {ex : Executor} {streams streams' : Streams} (hs : streams.Alike T streams')
  (hr : ∀ handle ∈ ex.recorder.file?, T.pairs handle handle)

theorem lockstep_launch (path : Bytes) (argv : List Bytes) (here : Surroundings) :
    Lockstep T Eq (Concurrent.launch ex path argv here) (Concurrent.launch ex path argv here) := by
  refine lockstep_step fun choice w w' hw => ?_
  revert hw
  dsimp only
  intro hw
  rw [hw.disk]
  cases hp : Launch.prepare w.disk here.dir path argv here.env.listing with
  | error e => exact ⟨rfl, .nil, hw.alike⟩
  | ok invocation =>
    cases hshort : ex.shortage invocation with
    | some e =>
      simp only [hshort]
      exact ⟨trivial, .nil, hw.alike⟩
    | none =>
      simp only [hp, hshort] at hw ⊢
      have hnumber : w'.begin.started = w.begin.started :=
        congrArg (· + 1) (hw.command (Nat.lt_succ_self _))
      rw [hnumber]
      exact ⟨rfl, .cons (.began [] _) .nil, hw.alike.begin⟩

section
include hs

theorem lockstep_say (text : Bytes) :
    Lockstep T Eq (Concurrent.say ex streams text) (Concurrent.say ex streams' text) :=
  (lockstep_write hs.error _).discard

theorem lockstep_reportSide (name : Bytes) (status : Status) :
    Lockstep T Eq (Concurrent.reportSide ex streams name status)
      (Concurrent.reportSide ex streams' name status) := by
  unfold Concurrent.reportSide
  split
  · exact lockstep_say hs _
  · exact lockstep_pure rfl

theorem alike_set {h h' : Nat} (hT : T.pairs h h') (slot : Slot) :
    (slot.set streams h).Alike T (slot.set streams' h') := by
  cases slot with
  | input => exact { hs with input := hT }
  | output => exact { hs with output := hT }
  | error => exact { hs with error := hT }

end

section
include hr

theorem lockstep_record (e : Event) :
    Lockstep T Eq (Concurrent.record ex e) (Concurrent.record ex e) :=
  lockstep_change fun hw hclock => ⟨rfl, hw.alike.record hclock hr "event" e⟩

end

include hs hr

theorem lockstep_notStarted (argv : List Bytes) (subject reason : Bytes) (status : Status) :
    Lockstep T Eq (Concurrent.notStarted ex streams argv subject reason status)
      (Concurrent.notStarted ex streams' argv subject reason status) :=
  (lockstep_say hs _).bind fun _ _ _ => (lockstep_record hr _).bind fun _ _ _ => lockstep_pure rfl

theorem lockstep_openTargets (argv : List Bytes) (list : List Target) {opened opened' : List Nat}
    (ho : List.Forall₂ T.pairs opened opened') :
    Lockstep T (Option.Rel (RedirectedAlike T)) (Concurrent.openTargets ex argv list streams opened)
      (Concurrent.openTargets ex argv list streams' opened') := by
  induction list generalizing streams streams' opened opened' with
  | nil => exact lockstep_pure (.some ⟨hs, ho⟩)
  | cons target rest ih =>
    refine lockstep_surroundings.bind ?_
    rintro here _ rfl
    refine (lockstep_openPath _ _).bind ?_
    rintro _ _ (e | hT)
    · exact (lockstep_say hs _).bind fun _ _ _ => (lockstep_record hr _).bind fun _ _ _ =>
        (lockstep_closeAll ho).bind fun _ _ _ => lockstep_pure .none
    · exact ih (alike_set hs hT target.slot) (List.rel_append ho (.cons hT .nil))

omit hs in
theorem lockstep_redirected (argv : List Bytes) (files : Redirections) {body body' : Streams → Behaviour Status}
    (hs : streams.Alike T streams')
    (h : ∀ inner inner', inner.Alike T inner' → Lockstep T Eq (body inner) (body' inner')) :
    Lockstep T Eq (Concurrent.redirected ex argv files streams body)
      (Concurrent.redirected ex argv files streams' body') := by
  refine (lockstep_openTargets hs hr argv (targets files) .nil).bind ?_
  rintro _ _ (⟨hinner, hopened⟩ | _)
  · refine (h _ _ hinner).bind ?_
    rintro status _ rfl
    exact (lockstep_closeAll hopened).bind fun _ _ _ => lockstep_pure rfl
  · exact lockstep_pure rfl

theorem lockstep_await (argv : List Bytes) (path dir : Bytes) (number : Nat) (invocation : Invocation) :
    Lockstep T Eq (Concurrent.await ex streams argv path dir number invocation)
      (Concurrent.await ex streams' argv path dir number invocation) := by
  refine ((lockstep_record hr _).both ((ex.programs invocation).lockstep_behaviour hs _)).bind ?_
  rintro ⟨_, outcome⟩ ⟨_, _⟩ ⟨-, rfl⟩
  exact (lockstep_hearEnd number).bind fun _ _ _ => (lockstep_record hr _).bind fun _ _ _ =>
    lockstep_pure rfl

theorem lockstep_spawn (argv : List Bytes) :
    Lockstep T Eq (Concurrent.spawn ex streams argv) (Concurrent.spawn ex streams' argv) := by
  refine lockstep_surroundings.bind ?_
  rintro here _ rfl
  refine Lockstep.bind (R := Eq) (lockstep_look fun hw => by rw [hw.disk]) ?_
  rintro result _ rfl
  cases result with
  | error e => exact lockstep_notStarted hs hr ..
  | ok path =>
    refine (lockstep_launch path argv here).bind ?_
    rintro launched _ rfl
    cases launched with
    | failed reason => exact lockstep_notStarted hs hr ..
    | short e => exact lockstep_notStarted hs hr ..
    | started number invocation => exact lockstep_await hs hr ..

theorem lockstep_builtin (argv : List Bytes) (b : Builtin) :
    Lockstep T Eq (Concurrent.builtin ex streams argv b) (Concurrent.builtin ex streams' argv b) := by
  cases b with
  | cd =>
    refine lockstep_surroundings.bind ?_
    rintro here _ rfl
    refine Lockstep.bind (R := Eq) (lockstep_look fun hw => by rw [hw.disk]) ?_
    rintro result _ rfl
    cases result with
    | ok moved =>
      exact (lockstep_enter moved.2).bind fun _ _ _ => (lockstep_write hs.output _).discard.bind
        fun _ _ _ => (lockstep_record hr _).bind fun _ _ _ => lockstep_pure rfl
    | error e =>
      exact (lockstep_say hs _).bind fun _ _ _ => (lockstep_record hr _).bind fun _ _ _ =>
        lockstep_pure rfl

theorem lockstep_plain (argv : List Bytes) (files : Redirections) :
    Lockstep T Eq (Concurrent.plain ex argv files streams)
      (Concurrent.plain ex argv files streams') := by
  cases argv with
  | nil => exact (lockstep_say hs _).bind fun _ _ _ => lockstep_pure rfl
  | cons name args =>
    simp only [Concurrent.plain]
    cases Builtin.ofName? name with
    | some b => exact lockstep_builtin hs hr (name :: args) b
    | none =>
      exact lockstep_redirected hr (name :: args) files hs fun inner inner' hinner =>
        lockstep_spawn hinner hr (name :: args)

omit hs hr in
theorem lockstep_side {body body' : Behaviour Status} (h : Lockstep T Eq body body')
    {handle handle' : Nat} (hT : T.pairs handle handle') :
    Lockstep T Eq (Concurrent.side body handle) (Concurrent.side body' handle') := by
  refine h.bind ?_
  rintro status _ rfl
  exact (lockstep_close hT).bind fun _ _ _ => lockstep_pure rfl

omit hs hr in
theorem lockstep_pipe {left left' right right' : Streams → Behaviour Status}
    (hl : ∀ inner inner', inner.Alike T inner' → Lockstep T Eq (left inner) (left' inner'))
    (hr : ∀ inner inner', inner.Alike T inner' → Lockstep T Eq (right inner) (right' inner'))
    (hs : streams.Alike T streams') :
    Lockstep T Eq (Concurrent.pipe ex left right streams)
      (Concurrent.pipe ex left' right' streams') := by
  refine lockstep_openPipe.bind ?_
  rintro _ _ (@⟨ends, ends', hends⟩ | _)
  · have hleft := lockstep_side (hl { streams with output := ends.write } { streams' with output := ends'.write }
      ⟨hs.input, hends.write, hs.error⟩) hends.write
    have hright := lockstep_side (hr { streams with input := ends.read } { streams' with input := ends'.read }
      ⟨hends.read, hs.output, hs.error⟩) hends.read
    refine (hleft.both hright).bind ?_
    rintro ⟨_, status⟩ ⟨_, _⟩ ⟨-, rfl⟩
    have hdrop : Lockstep T Eq (Behaviour.change fun w => ((), w.dropPipe ends.number))
        (Behaviour.change fun w => ((), w.dropPipe ends'.number)) :=
      lockstep_change fun hw _ => ⟨rfl, hw.alike.dropPipe hends.number⟩
    exact hdrop.bind fun _ _ _ => lockstep_pure rfl
  · exact (lockstep_say hs _).bind fun _ _ _ => lockstep_pure rfl

omit hs in
/-- A tree does the same in both runs. -/
theorem lockstep_execute (t : Tree) (hs : streams.Alike T streams') :
    Lockstep T Eq (Concurrent.execute ex t streams) (Concurrent.execute ex t streams') := by
  induction t generalizing streams streams' with
  | absent => exact (lockstep_say hs _).bind fun _ _ _ => lockstep_pure rfl
  | node kind argv files l r ihl ihr =>
    cases kind with
    | plain => exact lockstep_plain hs hr argv files
    | sequence =>
      refine ((ihl hs).within .left).bind ?_
      rintro status _ rfl
      refine (lockstep_reportSide hs "left" status).bind fun _ _ _ => ((ihr hs).within .right).bind ?_
      rintro status _ rfl
      exact (lockstep_reportSide hs "right" status).bind fun _ _ _ => lockstep_pure rfl
    | and | or =>
      refine ((ihl hs).within .left).bind ?_
      rintro status _ rfl
      split
      · exact lockstep_pure rfl
      · exact (ihr hs).within .right
    | pipe => exact lockstep_pipe (fun _ _ => ihl) (fun _ _ => ihr) hs
    | subshell =>
      refine lockstep_redirected hr argv files hs fun inner inner' hinner => ?_
      refine ((ihl hinner).within .left).bind ?_
      rintro status _ rfl
      exact lockstep_pure rfl
    | unknown => exact (lockstep_say hs _).bind fun _ _ _ => lockstep_pure rfl

end Executor

end CommandShell
