import CommandShell.PausableInput
import Mathlib.Data.List.Induction
import Mathlib.Logic.Relation

/-! Whoever pauses or closes the input can rely on it, in every order in which the reader, the
controller and a writer can act: no read of the pipe is in progress, none takes a byte, and the pipe
is left in blocking mode. The bytes of the pipe are taken once and in order, and a call answers with
the bytes that it took. -/
namespace CommandShell.PausableInput

/-! What can be seen of an action. -/

inductive Sign where
  | called
  | took (bytes : Bytes)
  /-- A call of the reader returned: bytes, or the end of input. -/
  | answered (bytes : Option Bytes)
  | wrote (bytes : Bytes)
  | tookDirectly (bytes : Bytes)
  /-- The controller called for reading to go on. -/
  | resumed
  /-- A call for reading to pause returned. -/
  | paused
  /-- A call for the input to be closed returned. -/
  | closed
  deriving DecidableEq, Repr

def Stop.sign : Stop → Sign
  | pause => .paused
  | close => .closed

def Got.sign? : Got → Option Sign
  | bytes taken => some (.answered (some taken))
  | nothing => some (.answered none)
  | gaveUp => none

/-- What an action that can happen shows. -/
def sign? (s : State) : Action → Option Sign
  | .call => some .called
  | .knock => if s.closed then some (.answered none) else none
  | .receive n => some (.took (s.pipe.take n))
  | .leave =>
    match s.reader with
    | .leaving got => got.sign?
    | _ => none
  | .pause => if s.paused ∨ s.closed then some .paused else none
  | .close => if s.closed then some .closed else none
  | .check =>
    match s.control with
    | .checking call => if s.marked then none else some call.sign
    | _ => none
  | .resume => some .resumed
  | .write bytes => some (.wrote bytes)
  | .direct n => some (.tookDirectly (s.pipe.take n))
  | _ => none

def follow (p : List Sign × State) (a : Action) : Option (List Sign × State) :=
  (step p.2 a).map fun s => (p.1 ++ (sign? p.2 a).toList, s)

/-- What is seen of a run and the state that it leads to, if the actions can happen in this order. -/
def run (actions : List Action) : Option (List Sign × State) := actions.foldlM follow ([], start)

/-- A property that holds at the start and is kept by every action holds after every run. -/
theorem run_induction {P : List Sign → State → Prop} (hstart : P [] start)
    (hstep : ∀ signs s a s', P signs s → step s a = some s' → P (signs ++ (sign? s a).toList) s')
    {actions : List Action} {signs : List Sign} {s : State} (h : run actions = some (signs, s)) :
    P signs s := by
  induction actions using List.reverseRecOn generalizing signs s with
  | nil =>
    cases h
    exact hstart
  | append_singleton actions a ih =>
    rw [run, List.foldlM_append] at h
    obtain ⟨⟨before, t⟩, hrun, hlast⟩ := Option.bind_eq_some_iff.mp h
    obtain ⟨⟨after, t'⟩, hfollow, he⟩ := Option.bind_eq_some_iff.mp hlast
    obtain ⟨u, hu, hpair⟩ := Option.map_eq_some_iff.mp hfollow
    obtain ⟨rfl, rfl⟩ := Prod.mk.inj hpair
    obtain ⟨rfl, rfl⟩ := Prod.mk.inj (Option.some.inj he)
    exact hstep before t a u (ih hrun) hu

/-! The state of reader and controller. -/

/-- Between being let in and leaving. -/
@[grind] def Reader.inside : Reader → Bool
  | admitted | reading | leaving _ => true
  | idle | arriving | asleep | returned _ | ended => false

@[grind =] theorem Reader.inside_wake (reader : Reader) : reader.wake.inside = reader.inside := by
  cases reader <;> rfl

@[grind ←] theorem Reader.wake_ne_asleep (reader : Reader) : reader.wake ≠ .asleep := by
  cases reader <;> simp [wake]

/-- The call by which reading is being stopped. -/
@[grind] def Control.stopping? : Control → Option Stop
  | expiring call | checking call | asleep call | woken call => some call
  | free | lifting | admitting => none

/-- The input is paused or closed, and the call that did it has returned. An input that is paused
can still be closed. -/
@[grind] def State.halted (s : State) : Bool :=
  match s.control with
  | .free => s.paused || s.closed
  | .expiring call | .checking call | .asleep call | .woken call => s.paused && call == .close
  | .lifting | .admitting => false

/-- What holds of reader and controller between any two actions. -/
structure Sound (s : State) : Prop where
  marked : s.marked = s.reader.inside
  nonblocking : s.nonblocking = !s.halted
  halted : s.halted → s.marked = false
  resuming : s.control = .lifting ∨ s.control = .admitting →
    s.paused ∧ ¬ s.closed ∧ s.marked = false
  pausing : s.control.stopping? = some .pause → s.paused ∧ ¬ s.closed
  closing : s.control.stopping? = some .close → s.closed
  expired : ∀ call, s.control.stopping? = some call → s.control ≠ .expiring call → s.expired
  /-- Nobody sleeps whom nobody will wake. -/
  readerAsleep : s.reader = .asleep → s.paused ∧ (s.closed → s.control = .expiring .close)
  controlAsleep : ∀ call, s.control = .asleep call → s.marked

theorem sound_start : Sound start := by
  constructor <;> simp [start, Reader.inside, State.halted, Control.stopping?]

variable {s s' : State} {a : Action}

/-- A reader that does not come in, leave or fall asleep. -/
theorem Sound.moved (h : Sound s) (pipe : Bytes) (hungUp : Bool) {reader : Reader}
    (hi : reader.inside = s.reader.inside) (ha : reader = .asleep → s.reader = .asleep) :
    Sound { s with pipe, hungUp, reader } :=
  { h with marked := h.marked.trans hi.symm, readerAsleep := fun he => h.readerAsleep (ha he) }

/-- A reader is let in if nothing stands against it. -/
theorem Sound.admitted (h : Sound s) (hr : s.reader = .arriving) (hl : ¬ s.control.holdsLock)
    (hc : ¬ s.closed) (hp : ¬ s.paused) : Sound { s with reader := .admitted, marked := true } := by
  obtain ⟨h1, h2, h3, h4, h5, h6, h7, h8, h9⟩ := h
  constructor <;> grind -ring -linarith

/-- A reader that leaves wakes the controller. -/
theorem Sound.left (h : Sound s) {got : Got} (hr : s.reader = .leaving got) :
    Sound { s with reader := got.next, marked := false, control := s.control.wake } := by
  obtain ⟨h1, h2, h3, h4, h5, h6, h7, h8, h9⟩ := h
  constructor <;> cases got <;> grind -ring -linarith

/-- A controller begins to stop the reader. -/
theorem Sound.stopping (h : Sound s) (hc : s.control = .free) (ho : ¬ s.closed) :
    (¬ s.paused → Sound { s with paused := true, control := .expiring .pause }) ∧
      Sound { s with closed := true, control := .expiring .close } := by
  obtain ⟨h1, h2, h3, h4, h5, h6, h7, h8, h9⟩ := h
  refine ⟨fun hp => ?_, ?_⟩ <;> constructor <;> grind -ring -linarith

/-- Reads give up; a reader that is asleep has to know that the input is closed. -/
theorem Sound.expiring (h : Sound s) :
    (s.control = .expiring .pause → Sound { s with expired := true, control := .checking .pause }) ∧
      (s.control = .expiring .close →
        Sound { s with expired := true, control := .checking .close, reader := s.reader.wake }) := by
  obtain ⟨h1, h2, h3, h4, h5, h6, h7, h8, h9⟩ := h
  refine ⟨fun hc => ?_, fun hc => ?_⟩ <;> constructor <;> grind -ring -linarith

/-- A controller that finds the reader marked falls asleep, and any other is done. -/
theorem Sound.checked (h : Sound s) {call : Stop} (hc : s.control = .checking call) :
    (s.marked → Sound { s with control := .asleep call }) ∧
      (¬ s.marked → Sound { s with nonblocking := false, control := .free }) := by
  obtain ⟨h1, h2, h3, h4, h5, h6, h7, h8, h9⟩ := h
  refine ⟨fun hm => ?_, fun hm => ?_⟩ <;> cases call <;> constructor <;> grind -ring -linarith

theorem Sound.relocked (h : Sound s) {call : Stop} (hc : s.control = .woken call) :
    Sound { s with control := .checking call } := by
  obtain ⟨h1, h2, h3, h4, h5, h6, h7, h8, h9⟩ := h
  constructor <;> grind -ring -linarith

/-- A controller goes through the three parts of a call to resume. -/
theorem Sound.resuming_step (h : Sound s) :
    (s.control = .free → s.paused → ¬ s.closed →
      Sound { s with nonblocking := true, control := .lifting }) ∧
    (s.control = .lifting → Sound { s with expired := false, control := .admitting }) ∧
    (s.control = .admitting →
      Sound { s with paused := false, control := .free, reader := s.reader.wake }) := by
  obtain ⟨h1, h2, h3, h4, h5, h6, h7, h8, h9⟩ := h
  refine ⟨fun hc hp ho => ?_, fun hc => ?_, fun hc => ?_⟩ <;> constructor <;> grind -ring -linarith

theorem Sound.step (h : Sound s) (hs : step s a = some s') : Sound s' := by
  cases a with
  | write | hangUp | direct =>
    cases hs
    exact h.moved _ _ rfl id
  | call | giveUp | reachEnd | receive =>
    simp only [PausableInput.step, Option.ite_none_right_eq_some, Option.some.injEq] at hs
    obtain ⟨hr, rfl⟩ := hs
    exact h.moved _ _ (by grind) (by simp)
  | begin =>
    simp only [PausableInput.step, Option.ite_none_right_eq_some, Option.some.injEq] at hs
    obtain ⟨hr, rfl⟩ := hs
    exact h.moved _ _ (by grind) (by grind)
  | collect =>
    simp only [PausableInput.step] at hs
    split at hs <;> cases hs <;> exact h.moved _ _ (by grind) (by simp)
  | knock =>
    simp only [PausableInput.step, Option.ite_none_right_eq_some] at hs
    obtain ⟨⟨hr, hl⟩, hs⟩ := hs
    split_ifs at hs with hc hp
    · cases hs
      exact h.moved _ _ (by grind) (by simp)
    · cases hs
      exact { h with marked := by grind [h.marked], readerAsleep := by grind }
    · cases hs
      exact h.admitted hr hl hc hp
  | leave =>
    simp only [PausableInput.step] at hs
    split at hs
    · next got hr =>
      -- That the lock is free keeps the controller from acting on an old mark, but the invariant does
      -- not need it.
      simp only [Option.ite_none_left_eq_some] at hs
      obtain ⟨-, hs⟩ := hs
      cases hs
      exact h.left hr
    · cases hs
  | pause =>
    simp only [PausableInput.step, ne_eq, Option.ite_none_left_eq_some, not_not] at hs
    obtain ⟨hc, hs⟩ := hs
    split_ifs at hs with ho
    · cases hs
      exact h
    · cases hs
      exact (h.stopping hc fun hclosed => ho (.inr hclosed)).1 fun hp => ho (.inl hp)
  | close =>
    simp only [PausableInput.step, ne_eq, Option.ite_none_left_eq_some, not_not] at hs
    obtain ⟨hc, hs⟩ := hs
    split_ifs at hs with ho
    · cases hs
      exact h
    · cases hs
      exact (h.stopping hc ho).2
  | expire =>
    simp only [PausableInput.step] at hs
    split at hs
    · next hc =>
      cases hs
      exact h.expiring.1 hc
    · next hc =>
      cases hs
      exact h.expiring.2 hc
    · cases hs
  | check =>
    simp only [PausableInput.step] at hs
    split at hs
    · next call hc =>
      split_ifs at hs with hm
      · cases hs
        exact (h.checked hc).1 hm
      · cases hs
        exact (h.checked hc).2 hm
    · cases hs
  | relock =>
    simp only [PausableInput.step] at hs
    split at hs
    · next call hc =>
      cases hs
      exact h.relocked hc
    · cases hs
  | resume =>
    simp only [PausableInput.step, ne_eq, Option.ite_none_left_eq_some, not_not] at hs
    obtain ⟨hc, hs⟩ := hs
    split_ifs at hs with ho
    · cases hs
      exact h
    · cases hs
      rw [not_or, not_not] at ho
      exact h.resuming_step.1 hc ho.1 ho.2
  | lift =>
    simp only [PausableInput.step, Option.ite_none_right_eq_some, Option.some.injEq] at hs
    obtain ⟨hc, rfl⟩ := hs
    exact h.resuming_step.2.1 hc
  | letIn =>
    simp only [PausableInput.step, Option.ite_none_right_eq_some, Option.some.injEq] at hs
    obtain ⟨hc, rfl⟩ := hs
    exact h.resuming_step.2.2 hc

/-! Pausing and closing. -/

/-- Nothing but a call to resume ends a halt. -/
theorem Sound.halted_step (h : Sound s) (hs : PausableInput.step s a = some s') (hh : s.halted)
    (ha : a ≠ .resume) : s'.halted := by
  have hm := h.halted hh
  cases a with
  | resume => exact absurd rfl ha
  | write | hangUp | direct =>
    cases hs
    exact hh
  | call | knock | begin | receive | giveUp | reachEnd | leave | collect | pause | close | expire
    | check | relock | lift | letIn =>
    simp only [PausableInput.step] at hs
    grind

/-- How a call to pause or to close returns: at once if there is nothing to do, or else when it sees
that the reader is not marked. -/
theorem return_cases (call : Stop) (hs : step s a = some s') (hsign : sign? s a = some call.sign) :
    (s.control = .free ∧ s' = s ∧ (s.closed ∨ call = .pause ∧ s.paused)) ∨
      (s.control = .checking call ∧ s.marked = false ∧
        s' = { s with nonblocking := false, control := .free }) := by
  cases a with
  | pause | close =>
    left
    simp only [step, sign?] at hs hsign
    cases call <;> grind [Stop.sign]
  | check =>
    right
    simp only [step, sign?] at hs hsign
    cases call <;> grind [Stop.sign, cases Stop]
  | leave =>
    simp only [sign?] at hsign
    split at hsign
    · next got _ => cases got <;> cases call <;> simp [Got.sign?, Stop.sign] at hsign
    · cases hsign
  | knock =>
    simp only [sign?] at hsign
    cases call <;> split at hsign <;> simp [Stop.sign] at hsign
  | call | begin | receive | giveUp | reachEnd | collect | expire | relock | resume | lift | letIn
    | write | hangUp | direct => cases call <;> simp [sign?, Stop.sign] at hsign

/-- Only a read of the pipe takes bytes for the reader. -/
theorem receive_of_took {bytes : Bytes} (hsign : sign? s a = some (.took bytes)) :
    ∃ n, a = .receive n := by
  cases a with
  | receive n => exact ⟨n, rfl⟩
  | leave =>
    simp only [sign?] at hsign
    split at hsign
    · next got _ => cases got <;> simp [Got.sign?] at hsign
    · cases hsign
  | check =>
    simp only [sign?] at hsign
    split at hsign
    · next call _ => cases call <;> split at hsign <;> simp [Stop.sign] at hsign
    · cases hsign
  | knock | pause | close =>
    simp only [sign?] at hsign
    split at hsign <;> simp at hsign
  | call | begin | giveUp | reachEnd | collect | expire | relock | resume | lift | letIn | write
    | hangUp | direct => simp [sign?] at hsign

theorem Sound.halted_of_return (h : Sound s) (call : Stop) (hs : PausableInput.step s a = some s')
    (hsign : sign? s a = some call.sign) : s'.halted := by
  obtain ⟨hc, rfl, hstop⟩ | ⟨hc, hm, rfl⟩ := return_cases call hs hsign
  · grind
  · have hpausing := h.pausing
    have hclosing := h.closing
    cases call <;> grind

theorem Sound.closed_of_return (h : Sound s) (hs : PausableInput.step s a = some s')
    (hsign : sign? s a = some .closed) : s'.closed ∧ s'.control = .free := by
  obtain ⟨hc, rfl, hstop⟩ | ⟨hc, hm, rfl⟩ := return_cases .close hs hsign
  · simpa [hc] using hstop
  · exact ⟨h.closing (by simp [hc, Control.stopping?]), rfl⟩

theorem closed_step (hc : s.closed ∧ s.control = .free) (hs : step s a = some s') :
    s'.closed ∧ s'.control = .free := by
  obtain ⟨hc, hf⟩ := hc
  cases a <;> simp only [step] at hs <;> grind

/-- Nobody has called for reading to go on since the start, or since a call to pause returned. -/
def Paused (signs : List Sign) : Prop :=
  ∃ before after, signs = before ++ after ∧ (before = [] ∨ before.getLast? = some .paused) ∧
    .resumed ∉ after

theorem Paused.of_concat {signs : List Sign} {last : Sign} (h : Paused (signs ++ [last])) :
    last = .paused ∨ last ≠ .resumed ∧ Paused signs := by
  obtain ⟨before, after, he, hbefore, hafter⟩ := h
  rcases List.eq_nil_or_concat after with rfl | ⟨more, x, rfl⟩
  · left
    rw [List.append_nil] at he
    subst he
    simpa using hbefore
  · right
    rw [List.concat_eq_append, ← List.append_assoc] at he
    obtain ⟨rfl, hx⟩ := List.append_inj' he rfl
    obtain rfl : last = x := by simpa using hx
    simp only [List.concat_eq_append, List.mem_append, List.mem_singleton, not_or] at hafter
    exact ⟨fun hl => hafter.2 hl.symm, before, more, rfl, hbefore, hafter.1⟩

/-- Reading has to stop once a call to pause returned, up to the next call to resume, and for good
once a call to close returned. -/
def Stopped (signs : List Sign) : Prop := Paused signs ∨ .closed ∈ signs

section
variable {actions : List Action} {signs : List Sign}

theorem sound_run (h : run actions = some (signs, s)) : Sound s :=
  run_induction (P := fun _ s => Sound s) sound_start (fun _ _ _ _ hs hstep => hs.step hstep) h

theorem closed_run (h : run actions = some (signs, s)) (hc : .closed ∈ signs) :
    s.closed ∧ s.control = .free := by
  have hrun : Sound s ∧ (.closed ∈ signs → s.closed ∧ s.control = .free) := by
    refine run_induction (P := fun signs s => Sound s ∧ (.closed ∈ signs → s.closed ∧
      s.control = .free)) ⟨sound_start, by simp⟩ ?_ h
    rintro signs s a s' ⟨hs, hc⟩ hstep
    refine ⟨hs.step hstep, fun hm => ?_⟩
    rcases List.mem_append.mp hm with hm | hm
    · exact closed_step (hc hm) hstep
    · exact hs.closed_of_return hstep (Option.mem_toList.mp hm)
  exact hrun.2 hc

theorem halted_run (h : run actions = some (signs, s)) (hstop : Stopped signs) : s.halted := by
  have hrun : Sound s ∧ (Paused signs → s.halted) := by
    refine run_induction (P := fun signs s => Sound s ∧ (Paused signs → s.halted))
      ⟨sound_start, fun _ => rfl⟩ ?_ h
    rintro signs s a s' ⟨hs, hp⟩ hstep
    refine ⟨hs.step hstep, fun hpaused => ?_⟩
    cases hsign : sign? s a with
    | none =>
      have ha : a ≠ .resume := by
        rintro rfl
        cases hsign
      rw [hsign, Option.toList_none, List.append_nil] at hpaused
      exact hs.halted_step hstep (hp hpaused) ha
    | some sign =>
      rw [hsign, Option.toList_some] at hpaused
      rcases hpaused.of_concat with rfl | ⟨hne, hpaused⟩
      · exact hs.halted_of_return .pause hstep hsign
      · refine hs.halted_step hstep (hp hpaused) ?_
        rintro rfl
        exact hne (Option.some.inj hsign).symm
  rcases hstop with hp | hc
  · exact hrun.2 hp
  · obtain ⟨hclosed, hfree⟩ := closed_run h hc
    simp [State.halted, hfree, hclosed]

end

/-! The bytes of the pipe. -/

@[grind] def Sign.written : Sign → Bytes
  | wrote bytes => bytes
  | called | took _ | answered _ | tookDirectly _ | resumed | paused | closed => []

@[grind] def Sign.consumed : Sign → Bytes
  | took bytes | tookDirectly bytes => bytes
  | called | answered _ | wrote _ | resumed | paused | closed => []

/-- What comes into the pipe and what is taken from its front make all the difference. -/
theorem pipe_step (hs : step s a = some s') :
    s.pipe ++ (sign? s a).toList.flatMap Sign.written =
      (sign? s a).toList.flatMap Sign.consumed ++ s'.pipe := by
  cases a with
  | write bytes =>
    cases hs
    simp [sign?, Sign.written, Sign.consumed]
  | direct n =>
    cases hs
    simp [sign?, Sign.written, Sign.consumed]
  | receive n =>
    simp only [step, Option.ite_none_right_eq_some, Option.some.injEq] at hs
    obtain ⟨-, rfl⟩ := hs
    simp [sign?, Sign.written, Sign.consumed]
  | call | begin | giveUp | reachEnd | collect | expire | relock | resume | lift | letIn | hangUp =>
    have hpipe : s'.pipe = s.pipe := by
      simp only [step] at hs
      grind
    simp [sign?, Sign.written, Sign.consumed, hpipe]
  | knock | leave | pause | close | check =>
    have hpipe : s'.pipe = s.pipe := by
      simp only [step] at hs
      grind
    rw [hpipe]
    simp only [sign?]
    grind [Got.sign?, Stop.sign, cases Got, cases Stop]

theorem written_run {actions : List Action} {signs : List Sign} (h : run actions = some (signs, s)) :
    signs.flatMap Sign.written = signs.flatMap Sign.consumed ++ s.pipe := by
  refine run_induction (P := fun signs s => signs.flatMap Sign.written =
    signs.flatMap Sign.consumed ++ s.pipe) rfl ?_ h
  intro signs s a s' ih hs
  rw [List.flatMap_append, List.flatMap_append, ih, List.append_assoc, pipe_step hs,
    List.append_assoc]

/-! The calls of the reader. -/

/-- What is known of the call that is open, if one is: it has taken nothing, or these bytes. -/
inductive Call where
  | idle
  | empty
  | holding (bytes : Bytes)
  deriving DecidableEq, Repr

/-- A call takes bytes once and returns them, or takes none and returns the end of input. -/
def Call.next? : Call → Sign → Option Call
  | idle, .called => some .empty
  | empty, .took bytes => some (.holding bytes)
  | empty, .answered none => some idle
  | holding bytes, .answered (some answer) => if answer = bytes then some idle else none
  | _, .called | _, .took _ | _, .answered _ => none
  | call, _ => some call

/-- The open call, if all calls so far went as they should. -/
def call? (signs : List Sign) : Option Call := signs.foldlM Call.next? .idle

def Reader.call : Reader → Call
  | idle | returned _ | ended => .idle
  | leaving (.bytes taken) => .holding taken
  | arriving | asleep | admitted | reading | leaving _ => .empty

theorem Reader.call_wake (reader : Reader) : reader.wake.call = reader.call := by
  cases reader <;> rfl

theorem call_step (hs : step s a = some s') :
    (sign? s a).toList.foldlM Call.next? s.reader.call = some s'.reader.call := by
  cases a with
  | write | hangUp | direct | pause | close | expire | check | relock | resume | lift | letIn =>
    have hcall : s'.reader.call = s.reader.call := by
      simp only [step] at hs
      grind [Reader.call_wake]
    rw [hcall]
    simp only [sign?]
    grind [Call.next?, Stop.sign, cases Stop]
  | call | knock | begin | receive | giveUp | reachEnd | leave | collect =>
    simp only [step, sign?] at hs ⊢
    grind [Call.next?, Reader.call, Got.sign?, cases Got]

theorem call_run {actions : List Action} {signs : List Sign} (h : run actions = some (signs, s)) :
    call? signs = some s.reader.call := by
  refine run_induction (P := fun signs s => call? signs = some s.reader.call) rfl ?_ h
  intro signs s a s' ih hs
  rw [call?, List.foldlM_append]
  exact Option.bind_eq_some_iff.mpr ⟨_, ih, call_step hs⟩

/-! The controller gets its lock and its way. -/

/-- Something that reader and controller do by themselves. -/
def OwnStep (s s' : State) : Prop := ∃ a ∈ ownActions, step s a = some s'

/-- Whatever the controller is in the middle of can come to its end. -/
def Returns (s : State) : Prop := ∃ s', Relation.ReflTransGen OwnStep s s' ∧ s'.control = .free

theorem Returns.of_step (a : Action) (ha : a ∈ ownActions) (hs : step s a = some s')
    (h : Returns s') : Returns s := by
  obtain ⟨last, hlast, hfree⟩ := h
  exact ⟨last, .head ⟨a, ha, hs⟩ hlast, hfree⟩

variable {call : Stop}

theorem returns_of_unmarked (hc : s.control = .checking call) (hm : s.marked = false) :
    Returns s := by
  have hs : step s .check = some { s with nonblocking := false, control := .free } := by
    simp [step, hc, hm]
  exact .of_step .check (by decide) hs ⟨_, .refl, rfl⟩

/-- The reader takes back its mark and wakes the controller, which has the lock before anything else
can happen. -/
theorem returns_of_leaving {got : Got} (hr : s.reader = .leaving got)
    (hc : s.control = .asleep call) : Returns s := by
  have hleave : step s .leave =
      some { s with reader := got.next, marked := false, control := .woken call } := by
    simp [step, hr, hc, Control.holdsLock, Control.wake]
  have hrelock : step { s with reader := got.next, marked := false, control := .woken call } .relock =
      some { s with reader := got.next, marked := false, control := .checking call } := by
    simp [step]
  exact .of_step .leave (by decide) hleave
    (.of_step .relock (by decide) hrelock (returns_of_unmarked rfl rfl))

/-- A controller that sleeps waits for a read, and the time of that read is over. -/
theorem Sound.returns_of_asleep (h : Sound s) (hc : s.control = .asleep call) : Returns s := by
  have hin : s.reader.inside := by
    rw [← h.marked]
    exact h.controlAsleep call hc
  have he : s.expired := h.expired call (by rw [hc]; rfl) (by simp [hc])
  cases hr : s.reader with
  | admitted =>
    have hs : PausableInput.step s .begin = some { s with reader := .leaving .gaveUp } := by
      simp [PausableInput.step, hr, he]
    exact .of_step .begin (by decide) hs (returns_of_leaving rfl hc)
  | reading =>
    have hs : PausableInput.step s .giveUp = some { s with reader := .leaving .gaveUp } := by
      simp [PausableInput.step, hr, he]
    exact .of_step .giveUp (by decide) hs (returns_of_leaving rfl hc)
  | leaving got => exact returns_of_leaving hr hc
  | idle | arriving | asleep | returned _ | ended => simp [hr, Reader.inside] at hin

theorem Sound.returns_of_checking (h : Sound s) (hc : s.control = .checking call) : Returns s := by
  cases hm : s.marked with
  | false => exact returns_of_unmarked hc hm
  | true =>
    have hs : PausableInput.step s .check = some { s with control := .asleep call } := by
      simp [PausableInput.step, hc, hm]
    exact .of_step .check (by decide) hs ((h.step hs).returns_of_asleep rfl)

theorem returns_of_admitting (hc : s.control = .admitting) : Returns s := by
  have hs : step s .letIn =
      some { s with paused := false, control := .free, reader := s.reader.wake } := by
    simp [step, hc]
  exact .of_step .letIn (by decide) hs ⟨_, .refl, rfl⟩

theorem Sound.returns (h : Sound s) : Returns s := by
  cases hc : s.control with
  | free => exact ⟨s, .refl, hc⟩
  | checking call => exact h.returns_of_checking hc
  | asleep call => exact h.returns_of_asleep hc
  | woken call =>
    have hs : PausableInput.step s .relock = some { s with control := .checking call } := by
      simp [PausableInput.step, hc]
    exact .of_step .relock (by decide) hs ((h.step hs).returns_of_checking rfl)
  | expiring call =>
    obtain ⟨s', hs, hc'⟩ : ∃ s', PausableInput.step s .expire = some s' ∧
        s'.control = .checking call := by
      cases call <;> simp [PausableInput.step, hc]
    exact .of_step .expire (by decide) hs ((h.step hs).returns_of_checking hc')
  | admitting => exact returns_of_admitting hc
  | lifting =>
    have hs : PausableInput.step s .lift =
        some { s with expired := false, control := .admitting } := by
      simp [PausableInput.step, hc]
    exact .of_step .lift (by decide) hs (returns_of_admitting rfl)

/-- In whatever order reader, controller and writer act: while reading is stopped, no read of the pipe
is in progress, the pipe is in blocking mode and no read takes a byte. Every byte is taken at most
once and in order, and every call of the reader that took bytes returns just these. Once a call to
close has returned, a call that is open has taken nothing, and all that it can do, and can do at once,
is to return the end of input. And no call of the controller gets stuck. -/
theorem pausing_keeps_reads_away {actions : List Action} {signs : List Sign}
    (h : run actions = some (signs, s)) :
    (Stopped signs → s.reader.inside = false ∧ s.nonblocking = false ∧
      ∀ a s' bytes, step s a = some s' → sign? s a ≠ some (.took bytes)) ∧
    signs.flatMap Sign.written = signs.flatMap Sign.consumed ++ s.pipe ∧
    (∃ call, call? signs = some call ∧ (.closed ∈ signs → call = .idle ∨
      call = .empty ∧ (step s .knock).isSome ∧ sign? s .knock = some (.answered none))) ∧
    Returns s := by
  have hsound := sound_run h
  have hstopped (hstop : Stopped signs) : s.reader.inside = false := by
    rw [← hsound.marked]
    exact hsound.halted (halted_run h hstop)
  refine ⟨fun hstop => ⟨hstopped hstop, ?_, ?_⟩, written_run h, ?_, hsound.returns⟩
  · simp [hsound.nonblocking, halted_run h hstop]
  · intro a s' bytes hs hsign
    have hin := hstopped hstop
    obtain ⟨n, rfl⟩ := receive_of_took hsign
    simp only [step, Option.ite_none_right_eq_some] at hs
    simp [hs.1.1, Reader.inside] at hin
  · refine ⟨s.reader.call, call_run h, fun hc => ?_⟩
    have hin := hstopped (.inr hc)
    obtain ⟨hclosed, hfree⟩ := closed_run h hc
    cases hr : s.reader with
    | idle | returned _ | ended => exact .inl rfl
    | arriving => exact .inr ⟨rfl, by simp [step, hr, hfree, Control.holdsLock, hclosed],
        by simp [sign?, hclosed]⟩
    | asleep =>
      have hlate := (hsound.readerAsleep hr).2 hclosed
      simp [hfree] at hlate
    | admitted | reading | leaving _ => simp [hr, Reader.inside] at hin

/-- A pause falls between the mark and the read, a command reads the pipe, and after a resume the
input is closed while the reader leaves with the rest. The next call finds the end. -/
def crossedCalls : List Action :=
  [.call, .resume, .lift, .letIn, .knock, .pause, .expire, .check, .write [97, 98], .begin, .leave,
    .knock, .relock, .check, .direct 1, .resume, .lift, .letIn, .knock, .begin, .receive readSize,
    .close, .expire, .check, .leave, .relock, .check, .collect, .call]

theorem pausing_keeps_reads_away_crossed :
    ∃ signs s, run crossedCalls = some (signs, s) ∧ .closed ∈ signs ∧ s.reader.inside = false ∧
      s.nonblocking = false ∧ signs.flatMap Sign.consumed = [97, 98] ∧ call? signs = some .empty ∧
      sign? s .knock = some (.answered none) := by
  have hrun : run crossedCalls = some
      ([.called, .resumed, .wrote [97, 98], .paused, .tookDirectly [97], .resumed, .took [98],
        .answered (some [98]), .closed, .called],
        { closed := true, reader := .arriving, paused := false }) := by
    decide
  obtain ⟨hstop, -, ⟨call, hcall, hclosed⟩, -⟩ := pausing_keeps_reads_away hrun
  obtain ⟨hin, hblocking, -⟩ := hstop (.inr (by decide))
  obtain rfl : call = .empty := Option.some.inj (hcall.symm.trans (by decide))
  obtain hidle | ⟨-, -, hsign⟩ := hclosed (by decide)
  · cases hidle
  · exact ⟨_, _, hrun, by decide, hin, hblocking, by decide, hcall, hsign⟩

end CommandShell.PausableInput
