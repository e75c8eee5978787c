import CommandShell.Event.Log
import CommandShell.Proofs.JsonText

/-! Entries of a log are read back from the JSON they are written as. The one thing that gets lost is
the difference between no words and an empty list of words in a failed redirection. -/
namespace CommandShell

/-- Numbers of 64 bits. -/
def Fits64 (n : Int) : Prop := -0x8000000000000000 ≤ n ∧ n ≤ 0x7fffffffffffffff

/-- Words without stray bytes. -/
def ValidWords (command : Option (List Bytes)) : Prop :=
  ∀ words ∈ command, ∀ word ∈ words, Utf8.isValid word = true

/-! What every record has to be made of. -/

structure InputLine.Proper (e : InputLine) : Prop where
  line : Utf8.isValid e.line = true
  status : Fits64 e.status

structure RunCommand.Proper (e : RunCommand) : Prop where
  command : ValidWords e.command
  path : Utf8.isValid e.path = true
  dir : Utf8.isValid e.dir = true
  pid : Fits64 e.pid

structure CommandExit.Proper (e : CommandExit) : Prop where
  command : ValidWords e.command
  pid : Fits64 e.pid
  status : Fits64 e.status

structure BuiltinRun.Proper (e : BuiltinRun) : Prop where
  command : ValidWords e.command
  status : Fits64 e.status
  error : Utf8.isValid e.error = true

structure RedirectFailure.Proper (e : RedirectFailure) : Prop where
  command : ValidWords e.command
  path : Utf8.isValid e.path = true
  error : Utf8.isValid e.error = true

structure ExecFailure.Proper (e : ExecFailure) : Prop where
  command : ValidWords e.command
  error : Utf8.isValid e.error = true

/-- All texts are without stray bytes and all numbers have 64 bits; any events may be there. -/
structure Entry.Proper (e : Entry) : Prop where
  time : Fits64 e.time
  session : Utf8.isValid e.session = true
  inputLine : ∀ x ∈ e.inputLine, x.Proper
  runCommand : ∀ x ∈ e.runCommand, x.Proper
  commandExit : ∀ x ∈ e.commandExit, x.Proper
  builtin : ∀ x ∈ e.builtin, x.Proper
  redirectFailure : ∀ x ∈ e.redirectFailure, x.Proper
  execFailure : ∀ x ∈ e.execFailure, x.Proper

/-- An empty list of words is not written. -/
def RedirectFailure.readBack (e : RedirectFailure) : RedirectFailure :=
  { e with command := e.command.filter fun words => !words.isEmpty }

/-- What an entry is read back as. -/
def Entry.readBack (e : Entry) : Entry :=
  { e with redirectFailure := e.redirectFailure.map RedirectFailure.readBack }

namespace Json

/-! Decoding, field by field. -/

section
variable {ε α : Type} {fields : List (Bytes × Into ε α)} {unknown : Bytes → Decode ε Unit}
  {wrong : Json → ε} {old new : α}

theorem record_nil : record fields unknown wrong (.object []) old = pure old := rfl

theorem record_cons {name : Bytes} {v : Json} {read : Into ε α}
    (hf : findField? fields name = some read) (hr : read v old = pure new)
    (entries : List (Bytes × Json)) :
    record fields unknown wrong (.object ((name, v) :: entries)) old =
      record fields unknown wrong (.object entries) new := by
  rw [record, List.foldlM_cons]
  simp only [hf, hr]
  rfl

theorem record_append (new : α) {first : List (Bytes × Json)}
    (h : record fields unknown wrong (.object first) old = pure new)
    (entries : List (Bytes × Json)) :
    record fields unknown wrong (.object (first ++ entries)) old =
      record fields unknown wrong (.object entries) new := by
  rw [record] at h ⊢
  rw [List.foldlM_append, h]
  rfl

/-- A field that may be left out. -/
theorem record_fieldIf {name : Bytes} {v : Json} {read : Into ε α}
    (hf : findField? fields name = some read) {shown : Bool}
    (hr : shown = true → read v old = pure new) (hold : shown = false → new = old) :
    record fields unknown wrong (.object (fieldIf shown name v)) old = pure new := by
  cases shown with
  | false =>
    rw [hold rfl]
    rfl
  | true => exact record_cons hf (hr rfl) []

/-- An event that may be absent. -/
theorem record_payload {β : Type} {name : Bytes} {toJson : β → Json} {x : Option β}
    {read : Into ε α} (hf : findField? fields name = some read)
    (hr : ∀ b, x = some b → read (toJson b) old = pure new) (hold : x = none → new = old) :
    record fields unknown wrong (.object (Entry.payload name toJson x)) old = pure new := by
  cases x with
  | none =>
    rw [hold rfl]
    rfl
  | some b => exact record_cons hf (hr b rfl) []

theorem pointer_of_ne_null {empty : α} {read : Into ε α} {v : Json} (hv : v ≠ .null)
    (h : read v empty = pure new) : pointer empty read v none = pure (some new) := by
  have hread : (do return some (← read v empty)) = (pure (some new) : Decode ε (Option α)) := by
    rw [h]
    rfl
  cases v with
  | null => exact absurd rfl hv
  | _ => exact hread

theorem integer_int {n : Int} (hn : Fits64 n) (wrong : Json → ε) (old : Int) :
    integer wrong (.int n) old = pure n := by
  rw [Json.int, integer, toInt?_ofInt hn.1 hn.2]

theorem texts_strings (wrong wrongItem : Json → ε) (command old : Option (List Bytes)) :
    texts wrong wrongItem (words command) old = pure command := by
  have hgo (list : List Bytes) (old : List Bytes) :
      texts.go wrongItem (list.map .string) old = pure list := by
    induction list generalizing old with
    | nil => rfl
    | cons s list ih =>
      rw [List.map_cons, texts.go, ih]
      rfl
  cases command with
  | none => rfl
  | some list =>
    change (do return some (← texts.go wrongItem (list.map .string) (old.getD []))) = _
    rw [hgo]
    rfl

theorem return_of_eq {β : Type} {m : Decode ε β} {x : β} (h : m = pure x) (f : β → α) :
    (do return f (← m)) = (pure (f x) : Decode ε α) := by
  rw [h]
  rfl

end

end Json

open Json

namespace Entry

theorem readInputLine_toJson {e : InputLine} (h : e.Proper) : readInputLine e.toJson {} = pure e := by
  rw [InputLine.toJson, readInputLine, record,
    record_cons rfl (return_of_eq rfl _),
    record_cons rfl (return_of_eq (integer_int h.status _ _) _), record_nil]

theorem readRunCommand_toJson {e : RunCommand} (h : e.Proper) :
    readRunCommand e.toJson {} = pure e := by
  rw [RunCommand.toJson, readRunCommand, record,
    record_cons rfl (return_of_eq (texts_strings _ _ _ _) _),
    record_cons rfl (return_of_eq rfl _), record_cons rfl (return_of_eq rfl _),
    record_cons rfl (return_of_eq (integer_int h.pid _ _) _), record_nil]

theorem readCommandExit_toJson {e : CommandExit} (h : e.Proper) :
    readCommandExit e.toJson {} = pure e := by
  rw [CommandExit.toJson, readCommandExit, record,
    record_cons rfl (return_of_eq (texts_strings _ _ _ _) _),
    record_cons rfl (return_of_eq (integer_int h.pid _ _) _),
    record_cons rfl (return_of_eq (integer_int h.status _ _) _)]
  refine record_fieldIf rfl (fun hs => ?_) (fun hs => ?_)
  · refine (return_of_eq rfl _).trans ?_
    rw [← hs]
  · rw [← hs]

theorem readBuiltin_toJson {e : BuiltinRun} (h : e.Proper) : readBuiltin e.toJson {} = pure e := by
  rw [BuiltinRun.toJson, readBuiltin, record,
    record_cons rfl (return_of_eq (texts_strings _ _ _ _) _),
    record_cons rfl (return_of_eq (integer_int h.status _ _) _)]
  refine record_fieldIf rfl (fun _ => return_of_eq rfl _) (fun hs => ?_)
  simp only [Bool.not_eq_false', List.isEmpty_iff] at hs
  rw [← hs]

theorem readRedirectFailure_toJson (e : RedirectFailure) :
    readRedirectFailure e.toJson {} = pure e.readBack := by
  rw [RedirectFailure.toJson, readRedirectFailure, record]
  rw [record_append { command := e.command.filter fun words => !words.isEmpty }
    (record_fieldIf rfl (fun hs => ?_) (fun hs => ?_)), record_cons rfl (return_of_eq rfl _),
    record_cons rfl (return_of_eq rfl _), record_nil]
  · rfl
  · refine (return_of_eq (texts_strings _ _ _ _) _).trans ?_
    cases hc : e.command with
    | none => rfl
    | some words => simp_all [Option.filter_some]
  · cases hc : e.command with
    | none => rfl
    | some words => simp_all

theorem readExecFailure_toJson (e : ExecFailure) : readExecFailure e.toJson {} = pure e := by
  rw [ExecFailure.toJson, readExecFailure, record,
    record_cons rfl (return_of_eq (texts_strings _ _ _ _) _),
    record_cons rfl (return_of_eq rfl _), record_nil]

/-- An entry is read back. -/
theorem readEntry_toJson {e : Entry} (h : e.Proper) : readEntry e.toJson {} = pure e.readBack := by
  obtain ⟨time, session, inputLine, runCommand, commandExit, builtin, redirectFailure,
    execFailure⟩ := e
  simp only [toJson, payloads, Json.optional, List.append_assoc]
  rw [readEntry, record, record_cons rfl (return_of_eq (integer_int h.time _ _) _),
    record_append { time, session } (record_fieldIf rfl (fun _ => return_of_eq rfl _) (fun hs => ?_)),
    record_append { time, session, inputLine }
      (record_payload rfl (fun x hx => ?_) (fun hn => by rw [hn])),
    record_append { time, session, inputLine, runCommand }
      (record_payload rfl (fun x hx => ?_) (fun hn => by rw [hn])),
    record_append { time, session, inputLine, runCommand, commandExit }
      (record_payload rfl (fun x hx => ?_) (fun hn => by rw [hn])),
    record_append { time, session, inputLine, runCommand, commandExit, builtin }
      (record_payload rfl (fun x hx => ?_) (fun hn => by rw [hn])),
    record_append
      { time, session, inputLine, runCommand, commandExit, builtin
        redirectFailure := redirectFailure.map RedirectFailure.readBack }
      (record_payload rfl (fun x hx => ?_) (fun hn => by rw [hn]; rfl))]
  · refine record_payload rfl (fun x hx => ?_) (fun hn => ?_)
    · subst hx
      exact return_of_eq (pointer_of_ne_null (by simp [ExecFailure.toJson])
        (readExecFailure_toJson x)) _
    · subst hn
      rfl
  · subst hx
    exact return_of_eq (pointer_of_ne_null (by simp [RedirectFailure.toJson])
      (readRedirectFailure_toJson x)) _
  · subst hx
    exact return_of_eq (pointer_of_ne_null (by simp [BuiltinRun.toJson])
      (readBuiltin_toJson (h.builtin x rfl))) _
  · subst hx
    exact return_of_eq (pointer_of_ne_null (by simp [CommandExit.toJson])
      (readCommandExit_toJson (h.commandExit x rfl))) _
  · subst hx
    exact return_of_eq (pointer_of_ne_null (by simp [RunCommand.toJson])
      (readRunCommand_toJson (h.runCommand x rfl))) _
  · subst hx
    exact return_of_eq (pointer_of_ne_null (by simp [InputLine.toJson])
      (readInputLine_toJson (h.inputLine x rfl))) _
  · simp only [Bool.not_eq_false', List.isEmpty_iff] at hs
    rw [hs]

theorem ofJson_toJson {e : Entry} (h : e.Proper) : ofJson e.toJson = .ok e.readBack := by
  rw [ofJson, readEntry_toJson h]
  rfl

end Entry

/-! Entries are written as proper values. -/

namespace Json

/-- Fields of an object with plain names. -/
def ProperFields (d : Nat) (fields : List (Bytes × Json)) : Prop :=
  ∀ field ∈ fields, field.1.all (· < 0x80) = true ∧ Proper d field.2

theorem ProperFields.proper {d : Nat} {fields : List (Bytes × Json)} (h : ProperFields d fields) :
    Proper (d + 1) (.object fields) :=
  .object (fun field hf => Utf8.isValid_of_ascii (h field hf).1) (fun field hf => (h field hf).2)

section
variable {d : Nat} {name : Bytes} (hn : name.all (· < 0x80) = true)
include hn

theorem properFields_cons {v : Json} (hv : Proper d v) {fields : List (Bytes × Json)}
    (h : ProperFields d fields) : ProperFields d ((name, v) :: fields) :=
  List.forall_mem_cons.mpr ⟨⟨hn, hv⟩, h⟩

theorem properFields_fieldIf {v : Json} (hv : Proper d v) (shown : Bool) :
    ProperFields d (fieldIf shown name v) := by
  cases shown with
  | false => exact List.forall_mem_nil _
  | true => exact properFields_cons hn hv (List.forall_mem_nil _)

theorem properFields_payload {α : Type} {toJson : α → Json} {x : Option α}
    (h : ∀ a ∈ x, Proper d (toJson a)) : ProperFields d (Entry.payload name toJson x) := by
  cases x with
  | none => exact List.forall_mem_nil _
  | some a => exact properFields_cons hn (h a rfl) (List.forall_mem_nil _)

end

theorem properFields_nil (d : Nat) : ProperFields d [] := List.forall_mem_nil _

theorem ProperFields.append {d : Nat} {first fields : List (Bytes × Json)}
    (hf : ProperFields d first) (h : ProperFields d fields) : ProperFields d (first ++ fields) :=
  List.forall_mem_append.mpr ⟨hf, h⟩

theorem proper_words {command : Option (List Bytes)} (h : ValidWords command) :
    Proper 1 (words command) := by
  cases command with
  | none => exact .null 1
  | some list =>
    refine .array fun v hv => ?_
    obtain ⟨word, hword, rfl⟩ := List.mem_map.mp hv
    exact .string 0 (h list rfl word hword)

end Json

theorem InputLine.Proper.toJson {e : InputLine} (h : e.Proper) : Json.Proper 2 e.toJson :=
  (properFields_cons (by decide) (.string 1 h.line) <|
    properFields_cons (by decide) (.int 1 e.status) <| properFields_nil 1).proper

theorem RunCommand.Proper.toJson {e : RunCommand} (h : e.Proper) : Json.Proper 2 e.toJson :=
  (properFields_cons (by decide) (proper_words h.command) <|
    properFields_cons (by decide) (.string 1 h.path) <|
    properFields_cons (by decide) (.string 1 h.dir) <|
    properFields_cons (by decide) (.int 1 e.pid) <| properFields_nil 1).proper

theorem CommandExit.Proper.toJson {e : CommandExit} (h : e.Proper) : Json.Proper 2 e.toJson :=
  (properFields_cons (by decide) (proper_words h.command) <|
    properFields_cons (by decide) (.int 1 e.pid) <|
    properFields_cons (by decide) (.int 1 e.status) <|
    properFields_fieldIf (by decide) (.bool 1 true) e.signaled).proper

theorem BuiltinRun.Proper.toJson {e : BuiltinRun} (h : e.Proper) : Json.Proper 2 e.toJson :=
  (properFields_cons (by decide) (proper_words h.command) <|
    properFields_cons (by decide) (.int 1 e.status) <|
    properFields_fieldIf (by decide) (.string 1 h.error) _).proper

theorem RedirectFailure.Proper.toJson {e : RedirectFailure} (h : e.Proper) :
    Json.Proper 2 e.toJson :=
  ((properFields_fieldIf (by decide) (proper_words h.command) _).append <|
    properFields_cons (by decide) (.string 1 h.path) <|
    properFields_cons (by decide) (.string 1 h.error) <| properFields_nil 1).proper

theorem ExecFailure.Proper.toJson {e : ExecFailure} (h : e.Proper) : Json.Proper 2 e.toJson :=
  (properFields_cons (by decide) (proper_words h.command) <|
    properFields_cons (by decide) (.string 1 h.error) <| properFields_nil 1).proper

namespace Entry

theorem Proper.payloads {e : Entry} (h : e.Proper) : ProperFields 2 e.payloads := by
  refine (((((ProperFields.append ?_ ?_).append ?_).append ?_).append ?_).append ?_)
  · exact properFields_payload (by decide) fun x hx => (h.inputLine x hx).toJson
  · exact properFields_payload (by decide) fun x hx => (h.runCommand x hx).toJson
  · exact properFields_payload (by decide) fun x hx => (h.commandExit x hx).toJson
  · exact properFields_payload (by decide) fun x hx => (h.builtin x hx).toJson
  · exact properFields_payload (by decide) fun x hx => (h.redirectFailure x hx).toJson
  · exact properFields_payload (by decide) fun x hx => (h.execFailure x hx).toJson

theorem Proper.toJson {e : Entry} (h : e.Proper) : Json.Proper 3 e.toJson :=
  (properFields_cons (by decide) (.int 2 e.time) <|
    (properFields_fieldIf (by decide) (.string 2 h.session) _).append h.payloads).proper

end Entry

end CommandShell
