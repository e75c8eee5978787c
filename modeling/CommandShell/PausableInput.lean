import CommandShell.Bytes

/-! Input that can be paused. A reader reads from a pipe that commands read from too; while the
input is paused or closed it takes nothing, so everything goes to the commands. The reader, the
controller that pauses and resumes it, and whoever writes into the pipe act independently.

Reader and controller share a lock, under which they look at each other's marks, and a condition, on
which one sleeps until the other wakes it. The reader holds the lock for one action at a time and
never while it reads the pipe; the controller can hold it from one action to the next. -/
namespace CommandShell.PausableInput

/-- What a read of the pipe came to: bytes, the end of input, or nothing in time. -/
inductive Got where
  | bytes (taken : Bytes)
  | nothing
  | gaveUp
  deriving DecidableEq, Repr

inductive Reader where
  /-- No call is open. -/
  | idle
  /-- Wants the lock, to see whether it may read. -/
  | arriving
  | asleep
  /-- Marked as reading, but has not begun to read. -/
  | admitted
  | reading
  /-- Is done with the pipe, but still marked as reading. -/
  | leaving (got : Got)
  /-- The answer to the call: bytes, or the end of input. -/
  | returned (bytes : Bytes)
  | ended
  deriving DecidableEq, Repr

/-- The two calls that wait for a read in progress. -/
inductive Stop where
  | pause
  | close
  deriving DecidableEq, Repr

inductive Control where
  | free
  /-- Has said that reading is to stop, and is about to make reads give up. -/
  | expiring (call : Stop)
  /-- Looks whether the reader is marked. -/
  | checking (call : Stop)
  | asleep (call : Stop)
  /-- Was woken and wants the lock. -/
  | woken (call : Stop)
  /-- Is about to let reads take their time again. -/
  | lifting
  /-- Is about to let the reader in. -/
  | admitting
  deriving DecidableEq, Repr

/-- Whether the controller holds the lock. -/
@[grind] def Control.holdsLock : Control → Bool
  | free | asleep _ | woken _ => false
  | expiring _ | checking _ | lifting | admitting => true

structure State where
  pipe : Bytes := []
  hungUp : Bool := false
  paused : Bool := true
  closed : Bool := false
  /-- The reader's mark. -/
  marked : Bool := false
  /-- Reads of the pipe give up at once. -/
  expired : Bool := true
  nonblocking : Bool := false
  reader : Reader := .idle
  control : Control := .free
  deriving DecidableEq, Repr

def start : State := {}

/-- What becomes of the controller when the reader wakes whoever is asleep. -/
@[grind] def Control.wake : Control → Control
  | asleep call => woken call
  | control => control

/-- What becomes of the reader when the controller wakes whoever is asleep. -/
@[grind] def Reader.wake : Reader → Reader
  | asleep => arriving
  | reader => reader

inductive Action where
  | call
  | knock
  | begin
  | receive (n : Nat)
  | giveUp
  | reachEnd
  | leave
  | collect
  | pause
  | close
  | expire
  | check
  | relock
  | resume
  | lift
  | letIn
  | write (bytes : Bytes)
  | hangUp
  | direct (n : Nat)
  deriving DecidableEq, Repr

/-- Where the reader goes with what it got. Without bytes in time it tries again. -/
@[grind] def Got.next : Got → Reader
  | bytes taken => .returned taken
  | nothing => .ended
  | gaveUp => .arriving

/-- What an action does, if it can happen now. A read that begins when the time is over gives up; one
that has begun may still get bytes then. -/
def step (s : State) : Action → Option State
  | .call => if s.reader = .idle then some { s with reader := .arriving } else none
  | .knock =>
    if s.reader = .arriving ∧ ¬ s.control.holdsLock then
      if s.closed then some { s with reader := .ended }
      else if s.paused then some { s with reader := .asleep }
      else some { s with reader := .admitted, marked := true }
    else none
  | .begin =>
    if s.reader = .admitted then
      some { s with reader := if s.expired then .leaving .gaveUp else .reading }
    else none
  | .receive n =>
    if s.reader = .reading ∧ s.pipe ≠ [] ∧ 0 < n then
      some { s with reader := .leaving (.bytes (s.pipe.take n)), pipe := s.pipe.drop n }
    else none
  | .giveUp =>
    if s.reader = .reading ∧ s.expired then some { s with reader := .leaving .gaveUp } else none
  | .reachEnd =>
    if s.reader = .reading ∧ s.pipe = [] ∧ s.hungUp then
      some { s with reader := .leaving .nothing }
    else none
  | .leave =>
    match s.reader with
    | .leaving got =>
      if s.control.holdsLock then none
      else some { s with reader := got.next, marked := false, control := s.control.wake }
    | _ => none
  | .collect =>
    match s.reader with
    | .returned _ | .ended => some { s with reader := .idle }
    | _ => none
  | .pause =>
    if s.control ≠ .free then none
    else if s.paused ∨ s.closed then some s
    else some { s with paused := true, control := .expiring .pause }
  | .close =>
    if s.control ≠ .free then none
    else if s.closed then some s
    else some { s with closed := true, control := .expiring .close }
  | .expire =>
    match s.control with
    | .expiring .pause => some { s with expired := true, control := .checking .pause }
    | .expiring .close =>
      some { s with expired := true, control := .checking .close, reader := s.reader.wake }
    | _ => none
  | .check =>
    match s.control with
    | .checking call =>
      if s.marked then some { s with control := .asleep call }
      else some { s with nonblocking := false, control := .free }
    | _ => none
  | .relock =>
    match s.control with
    | .woken call => some { s with control := .checking call }
    | _ => none
  | .resume =>
    if s.control ≠ .free then none
    else if ¬ s.paused ∨ s.closed then some s
    else some { s with nonblocking := true, control := .lifting }
  | .lift =>
    if s.control = .lifting then some { s with expired := false, control := .admitting } else none
  | .letIn =>
    if s.control = .admitting then
      some { s with paused := false, control := .free, reader := s.reader.wake }
    else none
  | .write bytes => some { s with pipe := s.pipe ++ bytes }
  | .hangUp => some { s with hungUp := true }
  | .direct n => some { s with pipe := s.pipe.drop n }

def readSize : Nat := 64

/-- What reader and controller do by themselves once they are called. -/
def ownActions : List Action :=
  [.expire, .check, .relock, .lift, .letIn, .knock, .begin, .giveUp, .receive readSize, .reachEnd,
    .leave]

/-- Lets everything happen that can happen by itself. -/
def State.settle (s : State) : State :=
  go 16 s
where
  go : Nat → State → State
    | 0, s => s
    | n + 1, s =>
      match ownActions.findSome? (step s) with
      | some s => go n s
      | none => s

def State.perform (s : State) (a : Action) : State := ((step s a).getD s).settle

end CommandShell.PausableInput
