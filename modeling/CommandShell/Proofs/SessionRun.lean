import CommandShell.Proofs.EventAccount
import CommandShell.Proofs.NamelessContent
import CommandShell.Proofs.StatusRange
import CommandShell.Proofs.StreamView
import CommandShell.Session

/-! What a session does with its readings. It runs the lines that are not blank, each line that has
commands or cannot be parsed is recorded after it has been run, and what was recorded last is what the
session ends with. -/
namespace CommandShell

/-- What an event says about a line, if it is about one. -/
def Event.input? : Event → Option InputLine
  | .inputLine e => some e
  | _ => none

namespace Executor
variable {ex : Executor}

theorem Accounts.filterMap_input? {v : Visit} {events : List Event} (h : ex.Accounts v events) :
    events.filterMap Event.input? = [] :=
  h.elim rfl (fun _ => rfl) (fun _ => rfl) (fun _ => rfl) fun _ _ => rfl

theorem filterMap_input?_flatten {vs : List Visit} {parts : List (List Event)}
    (h : List.Forall₂ ex.Accounts vs parts) : parts.flatten.filterMap Event.input? = [] := by
  induction h with
  | nil => rfl
  | cons hv _ ih => rw [List.flatten_cons, List.filterMap_append, hv.filterMap_input?, ih]; rfl

/-- Commands leave no event that is about a line. -/
theorem events_execute (hrec : ex.recorder = .memory) (t : Tree) (streams : Streams) (s : Running) :
    ∃ events, ((ex.execute t streams).run s).2.world.events = s.world.events ++ events ∧
      events.filterMap Event.input? = [] := by
  obtain ⟨parts, hparts, he⟩ := account_execute hrec t streams s
  exact ⟨parts.flatten, he, filterMap_input?_flatten hparts⟩

end Executor

namespace Session

/-- Whether a session goes on after a reading. -/
def Reading.goesOn : Reading → Bool
  | .line _ | .interrupted => true
  | .ended | .failed _ => false

/-- The line that a reading gives to run. -/
def Reading.toRun? : Reading → Option Bytes
  | .line text => if text.isBlank then none else some text
  | _ => none

/-- The lines to run, up to the reading with which a session ends. -/
def linesOf (readings : List Reading) : List Bytes :=
  (readings.takeWhile Reading.goesOn).filterMap Reading.toRun?

/-- The reading with which a session ends. -/
def endOf (readings : List Reading) : Reading := (readings.dropWhile Reading.goesOn).headD .ended

/-- Runs lines, one after the other. -/
def runLines (s : Session) (lines : List Bytes) (st : State) : State :=
  lines.foldl (fun st line => s.runLine line st) st

/-- What is to be recorded about a line. -/
def inputOf? (s : Session) (line : Bytes) (st : State) : Option InputLine :=
  match Line.parse line with
  | .ok .absent => none
  | _ => some { line, status := (s.runLine line st).last }

/-- What is to be recorded about lines that are run one after the other. -/
def inputsOf (s : Session) : List Bytes → State → List InputLine
  | [], _ => []
  | line :: lines, st => (s.inputOf? line st).toList ++ s.inputsOf lines (s.runLine line st)

/-- The status recorded last. -/
def lastOf (before : Status) (inputs : List InputLine) : Status :=
  (inputs.getLast?.map InputLine.status).getD before

theorem lastOf_append (before : Status) (inputs more : List InputLine) :
    lastOf before (inputs ++ more) = lastOf (lastOf before inputs) more := by
  rw [lastOf, List.getLast?_append, lastOf]
  cases more.getLast? <;> rfl

section
variable {s : Session} {reading : Reading} {st : State}

theorem linesOf_cons (h : reading.goesOn) (rest : List Reading) :
    linesOf (reading :: rest) = reading.toRun?.toList ++ linesOf rest := by
  rw [linesOf, List.takeWhile_cons_of_pos h, List.filterMap_cons, linesOf]
  cases reading.toRun? <;> rfl

theorem endOf_cons (h : reading.goesOn) (rest : List Reading) :
    endOf (reading :: rest) = endOf rest := by
  rw [endOf, List.dropWhile_cons_of_pos h, endOf]

theorem handle_of_goesOn (h : reading.goesOn) :
    s.handle reading st = (none, s.runLines reading.toRun?.toList st) := by
  cases reading with
  | line text =>
    rw [handle, Reading.toRun?]
    split <;> rfl
  | interrupted => rfl
  | ended | failed => cases h

/-- A session runs its lines in order, and then does what its last reading asks for. -/
theorem follow_eq (readings : List Reading) (st : State) :
    let ended := s.follow readings st
    (some ended.status, ended.state) =
      s.handle (endOf readings) (s.runLines (linesOf readings) st) := by
  induction readings generalizing st with
  | nil => rfl
  | cons reading rest ih =>
    by_cases h : reading.goesOn
    · rw [endOf_cons h, linesOf_cons h, runLines, List.foldl_append, follow, handle_of_goesOn h]
      exact ih _
    · cases reading with
      | line | interrupted => exact absurd rfl h
      | ended | failed => rfl

theorem last_runLine (s : Session) (line : Bytes) (st : State) :
    (s.runLine line st).last = lastOf st.last (s.inputOf? line st).toList := by
  rw [inputOf?]
  split
  · next h =>
    rw [runLine_of_absent h]
    rfl
  · rfl

theorem last_runLines (s : Session) (lines : List Bytes) (st : State) :
    (s.runLines lines st).last = lastOf st.last (s.inputsOf lines st) := by
  induction lines generalizing st with
  | nil => rfl
  | cons line lines ih =>
    rw [inputsOf, lastOf_append, ← last_runLine]
    exact ih _

theorem events_banner (text : Bytes) (st : State) :
    (s.banner text st).running.world.events = st.running.world.events := by
  unfold banner
  split
  · exact World.events_print ..
  · rfl

theorem events_handle (reading : Reading) (h : ¬ reading.goesOn) (st : State) :
    (s.handle reading st).2.running.world.events = st.running.world.events := by
  cases reading with
  | ended => exact events_banner ..
  | failed => rfl
  | line | interrupted => exact absurd rfl h

variable (hrec : s.executor.recorder = .memory)
include hrec

theorem events_recordLine (line : Bytes) (st : State) :
    (s.recordLine line st).running.world.events =
      st.running.world.events ++ [.inputLine { line, status := st.last }] :=
  Executor.events_record hrec ..

/-- The events of a line: those of its commands, and then the one about the line. -/
theorem events_runLine (line : Bytes) (st : State) :
    ∃ events, (s.runLine line st).running.world.events = st.running.world.events ++ events ∧
      events.filterMap Event.input? = (s.inputOf? line st).toList := by
  rw [inputOf?]
  cases hp : Line.parse line with
  | error fault =>
    rw [runLine_of_error hp]
    refine ⟨[.inputLine { line, status := Status.badLine }], ?_, rfl⟩
    exact (events_recordLine hrec ..).trans (congrArg (· ++ _) (World.events_print ..))
  | ok tree =>
    cases tree with
    | absent =>
      rw [runLine_of_absent hp]
      exact ⟨[], (List.append_nil _).symm, rfl⟩
    | node kind argv files l r =>
      rw [runLine_of_tree hp (by simp)]
      let tree := s.aliases.expand (.node kind argv files l r)
      obtain ⟨events, he, hno⟩ := Executor.events_execute hrec tree s.streams st.running
      let status := ((s.executor.execute tree s.streams).run st.running).1
      refine ⟨events ++ [.inputLine { line, status }], ?_, ?_⟩
      · rw [← List.append_assoc, ← he]
        exact events_recordLine hrec ..
      · rw [List.filterMap_append, hno]
        rfl

theorem events_runLines (lines : List Bytes) (st : State) :
    ∃ events, (s.runLines lines st).running.world.events = st.running.world.events ++ events ∧
      events.filterMap Event.input? = s.inputsOf lines st := by
  induction lines generalizing st with
  | nil => exact ⟨[], (List.append_nil _).symm, rfl⟩
  | cons line lines ih =>
    obtain ⟨events, he, hi⟩ := events_runLine hrec line st
    obtain ⟨more, hm, hj⟩ := ih (s.runLine line st)
    refine ⟨events ++ more, ?_, ?_⟩
    · rw [← List.append_assoc, ← he]
      exact hm
    · rw [List.filterMap_append, hi, hj, inputsOf]

end

theorem goesOn_endOf (readings : List Reading) : ¬ (endOf readings).goesOn := by
  induction readings with
  | nil => decide
  | cons reading rest ih =>
    by_cases h : reading.goesOn
    · rwa [endOf_cons h]
    · rwa [endOf, List.dropWhile_cons_of_neg h]

/-- What is said about a line that cannot be parsed changes no file but the one it is written to. -/
theorem said_elsewhere (w : World) (k : Nat) (text : Bytes) :
    let said := w.print k text
    said.events = w.events ∧ said.disk.items = w.disk.items ∧
      ∀ id, w.source? k ≠ some (.disk (.content id)) → said.disk.content id = w.disk.content id := by
  refine ⟨w.events_print k text, ?_⟩
  rcases w.disk_write k text with h | ⟨id, data, hs, h⟩
  · exact ⟨congrArg Disk.items h, fun id _ => congrArg (Disk.content · id) h⟩
  · refine ⟨(congrArg Disk.items h).trans rfl, fun other hother => ?_⟩
    have hne : other ≠ id := by
      rintro rfl
      exact hother hs
    exact (congrArg (Disk.content · other) h).trans (w.disk.content_setContent_of_ne data hne)

/-- A session runs exactly its lines that are not blank, in order. A line that cannot be parsed has the
status 2, and only its diagnostic and its record change anything; a line without commands changes
nothing; any other line is recorded when its commands have been run, with their status, and they record
nothing about lines. If input ends, the status of the session is the one recorded last, and if reading
fails, it is -1. -/
theorem runs_and_records_lines (s : Session) :
    let record := s.executor.recorder.record "input"
    (∀ (line : Bytes) (st : State),
      let before := st.running.world
      let after := s.runLine line st
      match Line.parse line with
      | .error fault =>
        let said := before.print s.streams.error
          (s.config.name ++ ": syntax error: " ++ fault.message ++ "\n")
        after = ⟨⟨st.running.here, record (.inputLine { line, status := 2 }) said⟩, 2⟩ ∧
        said.events = before.events ∧ said.disk.items = before.disk.items ∧
        ∀ id, before.source? s.streams.error ≠ some (.disk (.content id)) →
          said.disk.content id = before.disk.content id
      | .ok .absent => after = st
      | .ok tree =>
        let (status, ran) := (s.executor.execute (s.aliases.expand tree) s.streams).run st.running
        after = ⟨⟨ran.here, record (.inputLine { line, status }) ran.world⟩, status⟩ ∧
        (s.executor.recorder = .memory → ∃ events, ran.world.events = before.events ++ events ∧
          events.filterMap Event.input? = [])) ∧
    ∀ (readings : List Reading) (st : State),
      let lines := linesOf readings
      let inputs := s.inputsOf lines (s.welcome st)
      let ended := s.run readings st
      ended.state = (s.handle (endOf readings) (s.runLines lines (s.welcome st))).2 ∧
      (endOf readings = .ended → ended.status = lastOf st.last inputs) ∧
      (∀ reason, endOf readings = .failed reason → ended.status = -1) ∧
      (s.executor.recorder = .memory → ∃ events,
        ended.state.running.world.events = st.running.world.events ++ events ∧
        events.filterMap Event.input? = inputs) := by
  intro record
  refine ⟨fun line st => ?_, fun readings st => ?_⟩
  · intro before after
    cases hp : Line.parse line with
    | error fault => exact ⟨runLine_of_error hp, said_elsewhere ..⟩
    | ok tree =>
      cases tree with
      | absent => exact runLine_of_absent hp
      | node => exact ⟨runLine_of_tree hp (by simp), fun hrec => Executor.events_execute hrec ..⟩
  · intro lines inputs ended
    have hwelcome : (s.welcome st).last = st.last := s.last_banner _ st
    have hended := follow_eq (s := s) readings (s.welcome st)
    have hstate : ended.state = (s.handle (endOf readings) (s.runLines lines (s.welcome st))).2 :=
      congrArg Prod.snd hended
    have hstatus : some ended.status =
        (s.handle (endOf readings) (s.runLines lines (s.welcome st))).1 :=
      congrArg Prod.fst hended
    refine ⟨hstate, fun he => ?_, fun reason he => ?_, fun hrec => ?_⟩
    · rw [he] at hstatus
      rw [Option.some.inj hstatus, last_runLines, hwelcome]
    · rw [he] at hstatus
      exact Option.some.inj hstatus
    · obtain ⟨events, he, hi⟩ := events_runLines hrec lines (s.welcome st)
      refine ⟨events, ?_, hi⟩
      rw [hstate, events_handle _ (goesOn_endOf readings), he]
      exact congrArg (· ++ events) (events_banner ..)

/-- A session without programs, in a world without files. -/
private def bare : Session where
  config := {}
  aliases := ⟨[]⟩
  executor := { name := [], programs := fun _ => .exit 0 }
  streams := Sandbox.streams

private def bareStart : State where
  running := { here := { dir := "/", env := .empty }, world := Sandbox.start {} [] }
  last := 7

set_option maxRecDepth 4000 in
/-- A command, a blank line, an interrupt, a comment and a quote that is not closed. -/
theorem runs_and_records_lines_quote :
    let readings : List Reading := [.line "cd /", .line " ", .interrupted, .line "# x", .line "'"]
    let ended := bare.run readings bareStart
    bare.runLine "# x" bareStart = bareStart ∧
    ended.status = 2 ∧ (bare.run [.failed "x"] bareStart).status = -1 ∧
    (bare.run [.interrupted] bareStart).status = 7 ∧
    ∃ events, ended.state.running.world.events = bareStart.running.world.events ++ events ∧
      events.filterMap Event.input? = [⟨"cd /", 0⟩, ⟨"'", 2⟩] := by
  intro readings ended
  obtain ⟨hlines, hruns⟩ := bare.runs_and_records_lines
  obtain ⟨-, hstatus, -, hevents⟩ := hruns readings bareStart
  obtain ⟨-, -, hfailed, -⟩ := hruns [.failed "x"] bareStart
  obtain ⟨-, hnothing, -, -⟩ := hruns [.interrupted] bareStart
  have hcommand : Line.parse "cd /" = .ok (.plain ["cd", "/"]) := by cbv
  have hcomment : Line.parse "# x" = .ok .absent := by cbv
  obtain ⟨fault, hquote⟩ : ∃ fault, Line.parse "'" = .error fault := by
    have hread : Line.read? "'" = none := by cbv
    rw [Line.parse, hread]
    exact ⟨_, rfl⟩
  have hinputs : bare.inputsOf (linesOf readings) (bare.welcome bareStart) =
      [⟨"cd /", 0⟩, ⟨"'", 2⟩] := by
    have hrun : linesOf readings = (["cd /", "# x", "'"] : List Bytes) := by
      subst readings
      cbv
    have hcd : (bare.runLine "cd /" (bare.welcome bareStart)).last = 0 := by cbv
    simp only [hrun, inputsOf, inputOf?, hcommand, hcomment, hquote, hcd, runLine_of_error hquote]
    rfl
  rw [hinputs] at hstatus hevents
  refine ⟨?_, hstatus rfl, hfailed "x" rfl, hnothing rfl, hevents rfl⟩
  simpa only [hcomment] using hlines "# x" bareStart

end Session

end CommandShell
