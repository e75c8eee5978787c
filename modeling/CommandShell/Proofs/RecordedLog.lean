import CommandShell.Proofs.CutLog
import CommandShell.Proofs.StreamView

/-! The log that a recorder writes. Every event adds one line to the file, whatever else goes on between
two events, and each line is read back as an entry: only stray bytes are replaced. -/
namespace CommandShell

/-! Entries with any bytes in their texts. -/

/-- Words with their stray bytes replaced. -/
def scrubWords (command : Option (List Bytes)) : Option (List Bytes) :=
  command.map (List.map Utf8.scrub)

def InputLine.scrub (e : InputLine) : InputLine := { e with line := Utf8.scrub e.line }

def RunCommand.scrub (e : RunCommand) : RunCommand :=
  { e with command := scrubWords e.command, path := Utf8.scrub e.path, dir := Utf8.scrub e.dir }

def CommandExit.scrub (e : CommandExit) : CommandExit := { e with command := scrubWords e.command }

def BuiltinRun.scrub (e : BuiltinRun) : BuiltinRun :=
  { e with command := scrubWords e.command, error := Utf8.scrub e.error }

def RedirectFailure.scrub (e : RedirectFailure) : RedirectFailure :=
  { command := scrubWords e.command, path := Utf8.scrub e.path, error := Utf8.scrub e.error }

def ExecFailure.scrub (e : ExecFailure) : ExecFailure :=
  { command := scrubWords e.command, error := Utf8.scrub e.error }

/-- An entry with the stray bytes of its texts replaced. -/
def Entry.scrub (e : Entry) : Entry where
  time := e.time
  session := Utf8.scrub e.session
  inputLine := e.inputLine.map InputLine.scrub
  runCommand := e.runCommand.map RunCommand.scrub
  commandExit := e.commandExit.map CommandExit.scrub
  builtin := e.builtin.map BuiltinRun.scrub
  redirectFailure := e.redirectFailure.map RedirectFailure.scrub
  execFailure := e.execFailure.map ExecFailure.scrub

/-- All numbers have 64 bits. -/
structure Entry.Fits (e : Entry) : Prop where
  time : Fits64 e.time
  inputLine : ∀ x ∈ e.inputLine, Fits64 x.status
  runCommand : ∀ x ∈ e.runCommand, Fits64 x.pid
  commandExit : ∀ x ∈ e.commandExit, Fits64 x.pid ∧ Fits64 x.status
  builtin : ∀ x ∈ e.builtin, Fits64 x.status

/-- All numbers of an event have 64 bits. -/
def Event.Fits (e : Event) : Prop := (Entry.ofEvent 0 [] e).Fits

theorem validWords_scrubWords (command : Option (List Bytes)) : ValidWords (scrubWords command) := by
  intro words hw word hm
  obtain ⟨old, -, rfl⟩ := Option.map_eq_some_iff.mp hw
  obtain ⟨s, -, rfl⟩ := List.mem_map.mp hm
  exact Utf8.isValid_scrub s

theorem Entry.Fits.scrub {e : Entry} (h : e.Fits) : e.scrub.Proper where
  time := h.time
  session := Utf8.isValid_scrub _
  inputLine := Option.forall_mem_map.mpr fun x hx => ⟨Utf8.isValid_scrub _, h.inputLine x hx⟩
  runCommand := Option.forall_mem_map.mpr fun x hx =>
    ⟨validWords_scrubWords _, Utf8.isValid_scrub _, Utf8.isValid_scrub _, h.runCommand x hx⟩
  commandExit := Option.forall_mem_map.mpr fun x hx =>
    ⟨validWords_scrubWords _, (h.commandExit x hx).1, (h.commandExit x hx).2⟩
  builtin := Option.forall_mem_map.mpr fun x hx =>
    ⟨validWords_scrubWords _, h.builtin x hx, Utf8.isValid_scrub _⟩
  redirectFailure := Option.forall_mem_map.mpr fun _ _ =>
    ⟨validWords_scrubWords _, Utf8.isValid_scrub _, Utf8.isValid_scrub _⟩
  execFailure := Option.forall_mem_map.mpr fun _ _ =>
    ⟨validWords_scrubWords _, Utf8.isValid_scrub _⟩

namespace Json

theorem scrub_words (command : Option (List Bytes)) :
    (words command).scrub = words (scrubWords command) := by
  cases command with
  | none => exact (Proper.null 0).clean
  | some list => simp [words, scrubWords, strings, Function.comp_def]

theorem scrub_payload {name : Bytes} (hn : name.all (· < 0x80) = true) {α : Type} {toJson : α → Json}
    {f : α → α} (h : ∀ a, (toJson a).scrub = toJson (f a)) (x : Option α) :
    (Entry.payload name toJson x).map scrubField = Entry.payload name toJson (x.map f) := by
  cases x with
  | none => rfl
  | some a =>
    rw [Entry.payload, List.map_singleton, scrubField_ascii hn, h]
    rfl

/-- Replacing stray bytes does not change how deep a value is nested. -/
theorem Nested.of_scrub {d : Nat} {v : Json} (h : Nested d v.scrub) : Nested d v := by
  generalize hu : v.scrub = u at h
  induction h generalizing v with
  | null d => cases v <;> simp_all [scrub, Nested.null]
  | bool d b => cases v <;> simp_all [scrub, Nested.bool]
  | int d n =>
    cases v with
    | number text =>
      rw [scrub] at hu <;> simp_all [Nested.int]
    | _ => simp_all [scrub, Json.int]
  | string d s => cases v <;> simp_all [scrub, Nested.string]
  | array h ih =>
    cases v with
    | array items =>
      rw [scrub_array] at hu
      obtain rfl := Json.array.inj hu
      exact .array fun v hv => ih _ (List.mem_map_of_mem hv) rfl
    | _ => simp_all [scrub]
  | object h ih =>
    cases v with
    | object fields =>
      rw [scrub_object] at hu
      obtain rfl := Json.object.inj hu
      exact .object fun field hf => ih _ (List.mem_map_of_mem hf) rfl
    | _ => simp_all [scrub]

end Json

open Json

theorem InputLine.scrub_toJson (e : InputLine) : e.toJson.scrub = e.scrub.toJson := by
  simp only [toJson, scrub, scrub_object, List.map_cons, List.map_nil]
  rw [scrubField_ascii (by decide), scrubField_ascii (by decide), scrub_string, scrub_int]

theorem RunCommand.scrub_toJson (e : RunCommand) : e.toJson.scrub = e.scrub.toJson := by
  simp only [toJson, scrub, scrub_object, List.map_cons, List.map_nil]
  rw [scrubField_ascii (by decide), scrubField_ascii (by decide), scrubField_ascii (by decide),
    scrubField_ascii (by decide), scrub_words, scrub_string, scrub_string, scrub_int]

theorem CommandExit.scrub_toJson (e : CommandExit) : e.toJson.scrub = e.scrub.toJson := by
  simp only [toJson, scrub, scrub_object, List.map_cons]
  rw [scrubField_ascii (by decide), scrubField_ascii (by decide), scrubField_ascii (by decide),
    scrub_fieldIf (by decide), scrub_words, scrub_int, scrub_int, scrub_bool]

theorem BuiltinRun.scrub_toJson (e : BuiltinRun) : e.toJson.scrub = e.scrub.toJson := by
  simp only [toJson, scrub, scrub_object, List.map_cons]
  rw [scrubField_ascii (by decide), scrubField_ascii (by decide), scrub_optional (by decide),
    scrub_words, scrub_int]

theorem RedirectFailure.scrub_toJson (e : RedirectFailure) : e.toJson.scrub = e.scrub.toJson := by
  have hshown : ((scrubWords e.command).getD []).isEmpty = (e.command.getD []).isEmpty := by
    cases e.command <;> simp [scrubWords]
  simp only [toJson, scrub, scrub_object, List.map_append, List.map_cons, List.map_nil]
  rw [scrub_fieldIf (by decide), scrubField_ascii (by decide), scrubField_ascii (by decide),
    scrub_words, scrub_string, scrub_string, hshown]

theorem ExecFailure.scrub_toJson (e : ExecFailure) : e.toJson.scrub = e.scrub.toJson := by
  simp only [toJson, scrub, scrub_object, List.map_cons, List.map_nil]
  rw [scrubField_ascii (by decide), scrubField_ascii (by decide), scrub_words, scrub_string]

namespace Entry

theorem scrub_toJson (e : Entry) : e.toJson.scrub = e.scrub.toJson := by
  simp only [toJson, payloads, scrub, scrub_object, List.map_cons, List.map_append]
  rw [scrubField_ascii (by decide), scrub_int, scrub_optional (by decide),
    scrub_payload (by decide) InputLine.scrub_toJson, scrub_payload (by decide) RunCommand.scrub_toJson,
    scrub_payload (by decide) CommandExit.scrub_toJson,
    scrub_payload (by decide) BuiltinRun.scrub_toJson,
    scrub_payload (by decide) RedirectFailure.scrub_toJson,
    scrub_payload (by decide) ExecFailure.scrub_toJson]

theorem Fits.readFirst_object {e : Entry} (h : e.Fits) (rest : Bytes) :
    readFirst (e.object ++ rest) = .ok (e.scrub.toJson, rest) := by
  have hnested : Nested 3 e.toJson := .of_scrub (by rw [scrub_toJson]; exact h.scrub.toJson.nested)
  rw [← scrub_toJson]
  exact hnested.readFirst_object true (by decide) rest

end Entry

namespace Log

/-- An entry that is written is read, whatever its texts hold. -/
theorem go_object_of_fits {e : Entry} (h : e.Fits) (f : Nat) (rest : Bytes) :
    go (f + 1) (e.object ++ rest) = (go f rest).cons e.scrub.readBack := by
  have hread := h.readFirst_object rest
  obtain ⟨body, he⟩ := e.object_eq
  rw [he, List.cons_append] at hread ⊢
  rw [go, List.dropWhile_cons_of_neg (by decide)]
  simp only [hread, Entry.ofJson_toJson h.scrub]
  rfl

theorem read_write_of_fits {entries : List Entry} (h : ∀ e ∈ entries, e.Fits) :
    read (write entries) = ⟨entries.map fun e => e.scrub.readBack, none⟩ := by
  have hgo (f : Nat) (hf : (write entries).length < f) :
      go f (write entries) = ⟨entries.map fun e => e.scrub.readBack, none⟩ := by
    induction entries generalizing f with
    | nil => exact go_nil f
    | cons e entries ih =>
      obtain ⟨he, hes⟩ := List.forall_mem_cons.mp h
      obtain ⟨f, rfl⟩ := Nat.exists_eq_add_one_of_ne_zero (Nat.ne_zero_of_lt hf)
      rw [write_cons] at hf ⊢
      rw [List.length_append, List.length_cons] at hf
      rw [go_object_of_fits he, go_newline, ih hes f (by omega)]
      rfl
  exact hgo _ (Nat.lt_succ_self _)

end Log

/-! Recording. -/

/-- An open file that a text is added to the end of; it holds `content` now. -/
def World.Appending (w : World) (handle : Nat) (content : Bytes) : Prop :=
  ∃ id place, w.view handle = some ⟨.disk (.content id), true, place, some { waiting := content }⟩

/-- What an open file holds. -/
def World.held (w : World) (handle : Nat) : Bytes :=
  (((w.view handle).bind View.held).getD {}).waiting

/-- Events that are recorded one after the other through one recorder. Between them anything may happen
that leaves the file of the log alone, and time may go on or back. -/
inductive Recorded (handle : Nat) (session : Bytes) (w : World) : List Event → World → Prop where
  | start : Recorded handle session w [] w
  | other {events : List Event} {w' w'' : World} (h : Recorded handle session w events w')
      (hlog : w''.view handle = w'.view handle) : Recorded handle session w events w''
  | record {events : List Event} {w' : World} (h : Recorded handle session w events w')
      (hclock : Fits64 w'.clock) (subject : Bytes) (e : Event) :
      Recorded handle session w (events ++ [e])
        ((Recorder.file handle session).record subject e w')

namespace World
variable {w : World} {handle : Nat} {content : Bytes}

theorem Appending.held_eq (h : w.Appending handle content) : w.held handle = content := by
  obtain ⟨id, place, hv⟩ := h
  rw [held, hv]
  rfl

/-- A file that is open for appending grows by what is written. -/
theorem Appending.print (h : w.Appending handle content) (s : Bytes) :
    (w.print handle s).Appending handle (content ++ s) := by
  obtain ⟨id, place, hv⟩ := h
  by_cases hs : s = []
  · refine ⟨id, place, ?_⟩
    rw [World.print, view_write, hv, hs, List.append_nil, Option.map_some, View.write_nil]
  · refine ⟨id, content.length + s.length, ?_⟩
    rw [World.print, view_write, hv]
    simp [View.write, hs, overwrite]

end World

/-- An entry without the time. -/
def Entry.untimed (e : Entry) : Entry := { e with time := 0 }

theorem Entry.untimed_ofEvent (time : Int) (session : Bytes) (e : Event) :
    (ofEvent time session e).untimed = ofEvent 0 session e := by
  cases e <;> rfl

theorem Event.Fits.ofEvent {e : Event} (h : e.Fits) {time : Int} (ht : Fits64 time) (session : Bytes) :
    (Entry.ofEvent time session e).Fits := by
  cases e <;> exact ⟨ht, h.inputLine, h.runCommand, h.commandExit, h.builtin⟩

/-- Each event adds its line to the log. -/
theorem Recorded.appending {handle : Nat} {session : Bytes} {w w' : World} {events : List Event}
    (h : Recorded handle session w events w') (hfits : ∀ e ∈ events, e.Fits) {content : Bytes}
    (hlog : w.Appending handle content) :
    ∃ entries, w'.Appending handle (content ++ Log.write entries) ∧ (∀ e ∈ entries, e.Fits) ∧
      entries.map Entry.untimed = events.map (Entry.ofEvent 0 session) := by
  induction h with
  | start => exact ⟨[], by simpa [Log.write] using hlog, List.forall_mem_nil _, rfl⟩
  | other _ hview ih =>
    obtain ⟨entries, ⟨id, place, hv⟩, hrest⟩ := ih hfits
    exact ⟨entries, ⟨id, place, hview.trans hv⟩, hrest⟩
  | @record events w' _ hclock subject e ih =>
    obtain ⟨hfits, he⟩ := List.forall_mem_append.mp hfits
    obtain ⟨entries, happ, hall, hmap⟩ := ih hfits
    refine ⟨entries ++ [Entry.ofEvent w'.clock session e], ?_, ?_, ?_⟩
    · have hline := happ.print (Entry.ofEvent w'.clock session e).line
      rw [List.append_assoc] at hline
      rw [Log.write, List.flatMap_append, List.flatMap_singleton]
      exact hline
    · refine List.forall_mem_append.mpr ⟨hall, List.forall_mem_singleton.mpr ?_⟩
      exact (he e (List.mem_singleton_self e)).ofEvent hclock session
    · rw [List.map_append, hmap, List.map_append, List.map_singleton, List.map_singleton,
        Entry.untimed_ofEvent]

end CommandShell
