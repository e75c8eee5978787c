import CommandShell.Proofs.ConcurrentRun
import CommandShell.Proofs.RecordedLog
import CommandShell.Proofs.ReportBalance

/-! A report does not depend on the order of the entries. Each of its numbers is how many entries count
under it, so the reports on two logs add up, and events that two sides of a pipe record at the same
time lead to one report. -/
namespace CommandShell

/-- The counters of a report. -/
inductive Report.Heading where
  | invalid
  | sessions
  | lineStatuses
  | paths
  | names
  | exitStatuses
  | builtinLines
  | redirectFailures
  | execFailures
  deriving DecidableEq, Repr

/-- A number in a report: one of the plain ones, or the count of a text under a heading. Rows of a table
go by their text. -/
inductive Report.Number where
  | entries
  | lines
  | signaled
  | builtinFailures
  | count (heading : Report.Heading) (text : Bytes)
  deriving DecidableEq, Repr

namespace Report

/-- The counts under a heading; a table that does not exist has counted nothing. -/
def counter (r : Report) : Heading → Counter
  | .invalid => r.invalid
  | .sessions => r.sessions
  | .lineStatuses => r.lineStatuses
  | .paths => r.paths
  | .names => r.names
  | .exitStatuses => r.exitStatuses
  | .builtinLines => r.builtinLines
  | .redirectFailures => (r.redirectFailures.getD redirectTable).rows
  | .execFailures => (r.execFailures.getD execTable).rows

def value (r : Report) : Number → Nat
  | .entries => r.entries
  | .lines => r.lines
  | .signaled => r.signaled
  | .builtinFailures => r.builtinFailures
  | .count heading text => (r.counter heading).get text

end Report

/-- The text that an event counts under a heading. -/
def Event.text? : Event → Report.Heading → Option Bytes
  | .inputLine e, .lineStatuses => some (Bytes.ofInt e.status)
  | .runCommand e, .paths => some e.path
  | .runCommand e, .names => (e.command.getD []).head?
  | .commandExit e, .exitStatuses => some (Bytes.ofInt e.status)
  | .builtin e, .builtinLines => some (Bytes.join " " (e.command.getD []))
  | .redirectFailure e, .redirectFailures => some (TableCounter.rowText [e.path, e.error])
  | .execFailure e, .execFailures =>
    some (TableCounter.rowText [(e.command.getD []).headD [], e.error])
  | _, _ => none

namespace Entry

/-- The text that an entry counts under a heading. -/
def text? (e : Entry) (heading : Report.Heading) : Option Bytes :=
  match heading, e.event? with
  | .sessions, _ => if e.session.isEmpty then none else some e.session
  | .invalid, none => some "<nil>"
  | heading, some event => event.text? heading
  | _, none => none

/-- Whether an entry adds to a number. -/
def addsTo (e : Entry) : Report.Number → Bool
  | .entries => true
  | .lines => (e.event? matches some (.inputLine _))
  | .signaled => (e.event? matches some (.commandExit { signaled := true, .. }))
  | .builtinFailures =>
    match e.event? with
    | some (.builtin b) => b.status ≠ 0
    | _ => false
  | .count heading text => e.text? heading = some text

end Entry

namespace Report

/-- A report that has grown from an empty one: its tables have their columns and its counters are in
order. -/
structure Sound (r : Report) : Prop where
  tabled : r.Tabled
  ordered : ∀ heading, (r.counter heading).Ordered

variable {r : Report}

theorem Blank.counter_eq (h : r.Blank) (heading : Heading) : r.counter heading = {} := by
  rcases h with rfl | rfl <;> cases heading <;> rfl

theorem Blank.sound (h : r.Blank) : r.Sound :=
  ⟨h.tabled, fun heading => by rw [h.counter_eq]; exact Counter.ordered_empty⟩

theorem Blank.value_eq (h : r.Blank) (n : Number) : r.value n = 0 := by
  cases n with
  | count heading text => rw [value, h.counter_eq, Counter.get_nil]
  | _ => rcases h with rfl | rfl <;> rfl

/-! One entry. -/

/-- An entry counts at most one text under a heading, and leaves the other counters as they are. -/
theorem Tabled.counter_update (h : r.Tabled) (e : Entry) (heading : Heading) :
    (r.update e).counter heading =
      (e.text? heading).elim (r.counter heading) (r.counter heading).increment := by
  have hsession : (if e.session.isEmpty then r.sessions else r.sessions.increment e.session) =
      (if e.session.isEmpty then none else some e.session).elim r.sessions r.sessions.increment := by
    split <;> rfl
  unfold Report.update Entry.text?
  rcases e.event? with _ | event
  · cases heading with
    | sessions => exact hsession
    | _ => rfl
  · cases event with
    | runCommand x =>
      cases heading with
      | sessions => exact hsession
      | names =>
        simp only [countEvent, counter, Event.text?]
        cases x.command.getD [] <;> rfl
      | _ => rfl
    | redirectFailure x =>
      cases heading with
      | sessions => exact hsession
      | redirectFailures =>
        simp only [countEvent, counter, h.countRow_redirect]
        rfl
      | _ => rfl
    | execFailure x =>
      cases heading with
      | sessions => exact hsession
      | execFailures =>
        simp only [countEvent, counter, h.countRow_exec]
        rfl
      | _ => rfl
    | inputLine x | commandExit x | builtin x =>
      cases heading with
      | sessions => exact hsession
      | _ => rfl

theorem Sound.update (h : r.Sound) (e : Entry) : (r.update e).Sound := by
  refine ⟨h.tabled.update e, fun heading => ?_⟩
  rw [h.tabled.counter_update]
  cases e.text? heading with
  | none => exact h.ordered heading
  | some text => exact (h.ordered heading).increment text

/-- An entry adds one to a number, or nothing. -/
theorem Sound.value_update (h : r.Sound) (e : Entry) (n : Number) :
    (r.update e).value n = r.value n + (e.addsTo n).toNat := by
  cases n with
  | entries => exact entries_update r e
  | count heading text =>
    simp only [value, Entry.addsTo, h.tabled.counter_update]
    cases e.text? heading with
    | none => rfl
    | some key =>
      rw [Option.elim_some, Counter.get_increment (h.ordered heading)]
      by_cases hk : key = text <;> simp [hk]
  | lines =>
    unfold Report.update Entry.addsTo
    rcases e.event? with _ | event
    · rfl
    · cases event <;> rfl
  | signaled =>
    unfold Report.update Entry.addsTo
    rcases e.event? with _ | event
    · rfl
    · cases event with
      | commandExit x =>
        obtain ⟨command, pid, status, signaled⟩ := x
        cases signaled <;> rfl
      | _ => rfl
  | builtinFailures =>
    unfold Report.update Entry.addsTo
    rcases e.event? with _ | event
    · rfl
    · cases event with
      | builtin x =>
        by_cases hs : x.status = 0 <;> simp [value, countEvent, hs]
      | _ => rfl

/-! Many entries. -/

theorem Sound.ofEntries (h : r.Sound) (entries : List Entry) :
    (Report.ofEntries r entries).Sound := by
  induction entries generalizing r with
  | nil => exact h
  | cons e entries ih => exact ih (h.update e)

/-- Every number is how many entries add to it. -/
theorem Sound.value_ofEntries (h : r.Sound) (entries : List Entry) (n : Number) :
    (Report.ofEntries r entries).value n = r.value n + entries.countP (·.addsTo n) := by
  induction entries generalizing r with
  | nil => rfl
  | cons e entries ih =>
    have hcons : entries.countP (·.addsTo n) + (e.addsTo n).toNat =
        (e :: entries).countP (·.addsTo n) := by
      rw [List.countP_cons]
      cases e.addsTo n <;> rfl
    have hrest := ih (h.update e)
    rw [h.value_update, Nat.add_assoc, Nat.add_comm (Bool.toNat _), hcons] at hrest
    exact hrest

theorem Blank.value_ofEntries (h : r.Blank) (entries : List Entry) (n : Number) :
    (Report.ofEntries r entries).value n = entries.countP (·.addsTo n) := by
  rw [h.sound.value_ofEntries, h.value_eq, Nat.zero_add]

/-- A table is known by its columns and its rows. -/
theorem table_ext {t t' : Option TableCounter} {new : TableCounter} (hsome : t.isSome = t'.isSome)
    (ht : ∀ x ∈ t, x.columns = new.columns) (ht' : ∀ x ∈ t', x.columns = new.columns)
    (hrows : (t.getD new).rows = (t'.getD new).rows) : t = t' := by
  cases t with
  | none => cases t' with
    | none => rfl
    | some x' => cases hsome
  | some x => cases t' with
    | none => cases hsome
    | some x' =>
      obtain ⟨columns, rows⟩ := x
      obtain ⟨columns', rows'⟩ := x'
      have hc : columns = columns' := (ht _ rfl).trans (ht' _ rfl).symm
      have hr : rows = rows' := hrows
      rw [hc, hr]

section
variable {r' : Report} (h : r.Sound) (h' : r'.Sound) (hvalue : ∀ n, r.value n = r'.value n)
include h h' hvalue

theorem Sound.counter_eq (heading : Heading) : r.counter heading = r'.counter heading :=
  (h.ordered heading).ext (h'.ordered heading) fun text => hvalue (.count heading text)

theorem Sound.redirectFailures_eq
    (hsome : r.redirectFailures.isSome = r'.redirectFailures.isSome) :
    r.redirectFailures = r'.redirectFailures :=
  table_ext hsome h.tabled.redirectFailures h'.tabled.redirectFailures
    (h.counter_eq h' hvalue .redirectFailures)

theorem Sound.execFailures_eq (hsome : r.execFailures.isSome = r'.execFailures.isSome) :
    r.execFailures = r'.execFailures :=
  table_ext hsome h.tabled.execFailures h'.tabled.execFailures (h.counter_eq h' hvalue .execFailures)

/-- A report is known by its numbers, but for its tables. -/
theorem Sound.eq_with_tables :
    r = { r' with redirectFailures := r.redirectFailures, execFailures := r.execFailures } := by
  have hcounter := h.counter_eq h' hvalue
  obtain ⟨entries, invalid, sessions, lines, lineStatuses, paths, names, exitStatuses, signaled,
    builtinLines, builtinFailures, redirectFailures, execFailures⟩ := r
  obtain ⟨entries', invalid', sessions', lines', lineStatuses', paths', names', exitStatuses', signaled',
    builtinLines', builtinFailures', redirectFailures', execFailures'⟩ := r'
  obtain rfl : entries = entries' := hvalue .entries
  obtain rfl : lines = lines' := hvalue .lines
  obtain rfl : signaled = signaled' := hvalue .signaled
  obtain rfl : builtinFailures = builtinFailures' := hvalue .builtinFailures
  obtain rfl : invalid = invalid' := hcounter .invalid
  obtain rfl : sessions = sessions' := hcounter .sessions
  obtain rfl : lineStatuses = lineStatuses' := hcounter .lineStatuses
  obtain rfl : paths = paths' := hcounter .paths
  obtain rfl : names = names' := hcounter .names
  obtain rfl : exitStatuses = exitStatuses' := hcounter .exitStatuses
  obtain rfl : builtinLines = builtinLines' := hcounter .builtinLines
  rfl

/-- With its tables in place or missing alike, it is known by its numbers. -/
theorem Sound.ext (hredirect : r.redirectFailures.isSome = r'.redirectFailures.isSome)
    (hexec : r.execFailures.isSome = r'.execFailures.isSome) : r = r' := by
  have heq := h.eq_with_tables h' hvalue
  rw [h.redirectFailures_eq h' hvalue hredirect, h.execFailures_eq h' hvalue hexec] at heq
  exact heq

end

end Report

/-! Tables exist from the start or from the first entry that needs them. -/

/-- The entry is for a redirection that failed. -/
def Entry.failsRedirect (e : Entry) : Bool := e.event? matches some (.redirectFailure _)

/-- The entry is for a program that was not started. -/
def Entry.failsExec (e : Entry) : Bool := e.event? matches some (.execFailure _)

namespace Report
variable {r : Report}

/-- A table that an entry can bring into being is there if it was or if some entry has. -/
theorem isSome_ofEntries {table : Report → Option TableCounter} {makes : Entry → Bool}
    (hstep : ∀ r e, (table (r.update e)).isSome = ((table r).isSome || makes e)) (r : Report)
    (entries : List Entry) :
    (table (ofEntries r entries)).isSome = ((table r).isSome || entries.any makes) := by
  induction entries generalizing r with
  | nil => exact (Bool.or_false _).symm
  | cons e entries ih =>
    have hrest := ih (r.update e)
    rw [hstep, Bool.or_assoc, ← List.any_cons] at hrest
    exact hrest

theorem isSome_redirectFailures (r : Report) (entries : List Entry) :
    (ofEntries r entries).redirectFailures.isSome =
      (r.redirectFailures.isSome || entries.any Entry.failsRedirect) := by
  refine isSome_ofEntries (fun r e => ?_) r entries
  unfold update Entry.failsRedirect
  rcases e.event? with _ | event
  · exact (Bool.or_false _).symm
  · cases event with
    | redirectFailure => exact (Bool.or_true _).symm
    | _ => exact (Bool.or_false _).symm

theorem isSome_execFailures (r : Report) (entries : List Entry) :
    (ofEntries r entries).execFailures.isSome =
      (r.execFailures.isSome || entries.any Entry.failsExec) := by
  refine isSome_ofEntries (fun r e => ?_) r entries
  unfold update Entry.failsExec
  rcases e.event? with _ | event
  · exact (Bool.or_false _).symm
  · cases event with
    | execFailure => exact (Bool.or_true _).symm
    | _ => exact (Bool.or_false _).symm

theorem Sound.ofEntries_perm (h : r.Sound) {entries entries' : List Entry}
    (hp : entries.Perm entries') : Report.ofEntries r entries = Report.ofEntries r entries' := by
  refine (h.ofEntries _).ext (h.ofEntries _) (fun n => ?_) ?_ ?_
  · rw [h.value_ofEntries, h.value_ofEntries, hp.countP_eq]
  · rw [isSome_redirectFailures, isSome_redirectFailures, hp.any_eq]
  · rw [isSome_execFailures, isSome_execFailures, hp.any_eq]

/-- A report that was started without its tables differs in those that saw no entry. -/
theorem toJson_ofEntries_without_tables (entries : List Entry) :
    let r := ofEntries empty entries
    (ofEntries {} entries).toJson =
        r.layout (if entries.any Entry.failsRedirect then table r.redirectFailures else .null)
          (if entries.any Entry.failsExec then table r.execFailures else .null) ∧
      (entries.any Entry.failsRedirect = false → table r.redirectFailures = .array []) ∧
      (entries.any Entry.failsExec = false → table r.execFailures = .array []) := by
  intro r
  have hblank : Blank empty := .inl rfl
  have hzero : Blank {} := .inr rfl
  have hs : r.Sound := hblank.sound.ofEntries entries
  have hz : (ofEntries {} entries).Sound := hzero.sound.ofEntries entries
  have hvalue (n : Number) : (ofEntries {} entries).value n = r.value n :=
    (hzero.value_ofEntries entries n).trans (hblank.value_ofEntries entries n).symm
  have hcounter := hz.counter_eq hs hvalue
  have hredirect : r.redirectFailures.isSome = true := isSome_redirectFailures empty entries
  have hexec : r.execFailures.isSome = true := isSome_execFailures empty entries
  have hredirect' := isSome_redirectFailures {} entries
  have hexec' := isSome_execFailures {} entries
  rw [Option.isSome_none, Bool.false_or] at hredirect' hexec'
  -- A table without rows is an empty list.
  have hnone {t t' : Option TableCounter} {new : TableCounter} (hnew : new.rows = {})
      (ht : t.isSome = true) (ht' : t'.isSome = false) (hrows : (t'.getD new).rows = (t.getD new).rows) :
      table t = .array [] := by
    obtain ⟨⟨columns, rows⟩, rfl⟩ := Option.isSome_iff_exists.mp ht
    rw [Option.isSome_eq_false_iff, Option.isNone_iff_eq_none] at ht'
    subst ht'
    have hr : rows = {} := hrows.symm.trans hnew
    simp [table, TableCounter.toJson, hr]
  have hshown {t t' : Option TableCounter} {any : Bool} (hsome : t'.isSome = any)
      (heq : any = true → t' = t) : table t' = if any then table t else .null := by
    cases any with
    | false =>
      rw [Option.isSome_eq_false_iff, Option.isNone_iff_eq_none] at hsome
      rw [hsome]
      rfl
    | true =>
      rw [heq rfl]
      rfl
  refine ⟨?_, fun hany => ?_, fun hany => ?_⟩
  · have hlayout (a b : Json) : (ofEntries {} entries).layout a b = r.layout a b := by
      rw [hz.eq_with_tables hs hvalue]
      rfl
    rw [toJson, hlayout]
    rw [hshown hredirect' fun hany =>
        hz.redirectFailures_eq hs hvalue (hredirect'.trans (hany.trans hredirect.symm)),
      hshown hexec' fun hany => hz.execFailures_eq hs hvalue (hexec'.trans (hany.trans hexec.symm))]
  · exact hnone rfl hredirect (hredirect'.trans hany) (hcounter .redirectFailures)
  · exact hnone rfl hexec (hexec'.trans hany) (hcounter .execFailures)

/-! Rows of a counter that are listed in any order. -/

/-- The rows of every counter in the order in which they are shown. -/
def arranged (r : Report) : Report :=
  { r with
    invalid := r.invalid.arranged
    sessions := r.sessions.arranged
    lineStatuses := r.lineStatuses.arranged
    paths := r.paths.arranged
    names := r.names.arranged
    exitStatuses := r.exitStatuses.arranged
    builtinLines := r.builtinLines.arranged
    redirectFailures := r.redirectFailures.map TableCounter.arranged
    execFailures := r.execFailures.map TableCounter.arranged }

/-- Two reports with the same numbers, whose counters may list their rows in different orders. -/
structure Listing (r r' : Report) : Prop where
  entries : r'.entries = r.entries
  lines : r'.lines = r.lines
  signaled : r'.signaled = r.signaled
  builtinFailures : r'.builtinFailures = r.builtinFailures
  rows : ∀ heading, (r'.counter heading).counts.Perm (r.counter heading).counts
  redirectColumns : r'.redirectFailures.map TableCounter.columns =
    r.redirectFailures.map TableCounter.columns
  execColumns : r'.execFailures.map TableCounter.columns = r.execFailures.map TableCounter.columns

theorem table_arranged {t t' : Option TableCounter} {new : TableCounter}
    (hcolumns : t'.map TableCounter.columns = t.map TableCounter.columns)
    (hp : (t'.getD new).rows.counts.Perm (t.getD new).rows.counts)
    (ho : (t.getD new).rows.Ordered) : table (t'.map TableCounter.arranged) = table t := by
  cases t with
  | none =>
    rw [Option.map_none, Option.map_eq_none_iff] at hcolumns
    rw [hcolumns, Option.map_none]
  | some x =>
    obtain ⟨⟨columns, rows⟩, rfl, hc⟩ := Option.map_eq_some_iff.mp hcolumns
    obtain rfl : columns = x.columns := hc
    exact TableCounter.toJson_arranged ho hp

/-- The JSON of a report does not depend on the order in which its counters list their rows. -/
theorem Listing.toJson_arranged {r' : Report} (h : r.Listing r') (hs : r.Sound) :
    r'.arranged.toJson = r.toJson := by
  have hcounter (heading : Heading) : (r'.counter heading).arranged = r.counter heading :=
    (hs.ordered heading).arranged_eq (h.rows heading)
  have hredirect := table_arranged h.redirectColumns (h.rows .redirectFailures)
    (hs.ordered .redirectFailures)
  have hexec := table_arranged h.execColumns (h.rows .execFailures) (hs.ordered .execFailures)
  have hinvalid : r'.invalid.arranged = r.invalid := hcounter .invalid
  have hsessions : r'.sessions.arranged = r.sessions := hcounter .sessions
  have hlineStatuses : r'.lineStatuses.arranged = r.lineStatuses := hcounter .lineStatuses
  have hpaths : r'.paths.arranged = r.paths := hcounter .paths
  have hnames : r'.names.arranged = r.names := hcounter .names
  have hexitStatuses : r'.exitStatuses.arranged = r.exitStatuses := hcounter .exitStatuses
  have hbuiltinLines : r'.builtinLines.arranged = r.builtinLines := hcounter .builtinLines
  simp only [toJson, layout, arranged, h.entries, h.lines, h.signaled, h.builtinFailures, hinvalid,
    hsessions, hlineStatuses, hpaths, hnames, hexitStatuses, hbuiltinLines, hredirect, hexec]

/-! Entries of a log that is written by two. -/

/-- The time of an entry is not reported. -/
theorem ofEntries_untimed (r : Report) (entries : List Entry) :
    ofEntries r (entries.map Entry.untimed) = ofEntries r entries := by
  rw [ofEntries, List.foldl_map]
  rfl

end Report

/-- A world in which the two sides of a pipe have recorded their events through one recorder, with the
calls of one side anywhere between those of the other. The log held some entries before. -/
def RecordedByBoth (handle : Nat) (session : Bytes) (before : List Entry) (left right : List Event)
    (w : World) : Prop :=
  ∃ w₀ events, w₀.Appending handle (Log.write before) ∧ Interleaving left right events ∧
    Recorded handle session w₀ events w

namespace Report

/-- The log can be read, and the report on it is the one on the events of the left side and then those
of the right. -/
theorem ofEntries_recordedByBoth {start : Report} (hs : start.Sound) {handle : Nat} {session : Bytes}
    {before : List Entry} {left right : List Event} {w : World} (hbefore : ∀ e ∈ before, e.Fits)
    (hfits : ∀ e ∈ left ++ right, e.Fits)
    (h : RecordedByBoth handle session before left right w) :
    (Log.read (w.held handle)).failure = none ∧
      (Log.read (w.held handle)).entries.length = before.length + left.length + right.length ∧
      ofEntries start (Log.read (w.held handle)).entries =
        ofEntries start ((before.map Entry.untimed ++
          (left ++ right).map (Entry.ofEvent 0 session)).map fun e => e.scrub.readBack) := by
  obtain ⟨w₀, events, hlog, hinter, hrec⟩ := h
  have hevents : ∀ e ∈ events, e.Fits := fun e he => hfits e (hinter.perm.mem_iff.mp he)
  obtain ⟨entries, happ, hall, hmap⟩ := hrec.appending hevents hlog
  have hwrite : Log.write before ++ Log.write entries = Log.write (before ++ entries) :=
    List.flatMap_append.symm
  have hread := Log.read_write_of_fits (List.forall_mem_append.mpr ⟨hbefore, hall⟩)
  have hlength : entries.length = left.length + right.length := by
    rw [← List.length_map Entry.untimed, hmap, List.length_map, hinter.perm.length_eq,
      List.length_append]
  rw [happ.held_eq, hwrite, hread]
  refine ⟨rfl, ?_, ?_⟩
  · rw [List.length_map, List.length_append, hlength, Nat.add_assoc]
  · -- What is read of an entry does not depend on its time either.
    have huntimed (l : List Entry) : (l.map fun e => e.scrub.readBack).map Entry.untimed =
        (l.map Entry.untimed).map fun e => e.scrub.readBack := by
      rw [List.map_map, List.map_map]
      rfl
    rw [← ofEntries_untimed, huntimed, List.map_append, hmap]
    exact hs.ofEntries_perm (((hinter.perm.map _).append_left _).map _)

/-- A report depends only on which entries are counted and how often, not on their order, and neither
does its JSON depend on the order in which a counter lists its rows. So what two sides of a pipe record
through one recorder leads to one report. The numbers for two lists of entries add up, and a report that
was started without its tables differs only in the tables that saw no entry. -/
theorem order_is_irrelevant {start : Report} (hstart : start.Blank) :
    (∀ entries entries' : List Entry, entries.Perm entries' →
      ofEntries start entries = ofEntries start entries' ∧
        ∀ listed, (ofEntries start entries').Listing listed →
          listed.arranged.toJson = (ofEntries start entries).toJson) ∧
    (∀ (handle : Nat) (session : Bytes) (before : List Entry) (left right : List Event) (w w' : World),
      (∀ e ∈ before, e.Fits) → (∀ e ∈ left ++ right, e.Fits) →
      RecordedByBoth handle session before left right w →
      RecordedByBoth handle session before left right w' →
      (Log.read (w.held handle)).failure = none ∧
        (Log.read (w.held handle)).entries.length = before.length + left.length + right.length ∧
        ofEntries start (Log.read (w.held handle)).entries =
          ofEntries start (Log.read (w'.held handle)).entries) ∧
    (∀ (entries entries' : List Entry) (n : Number),
      (ofEntries start (entries ++ entries')).value n =
        (ofEntries start entries).value n + (ofEntries start entries').value n) ∧
    ∀ entries : List Entry,
      let r := ofEntries empty entries
      (∀ n, (ofEntries {} entries).value n = r.value n) ∧
      (ofEntries {} entries).toJson =
        r.layout (if entries.any Entry.failsRedirect then table r.redirectFailures else .null)
          (if entries.any Entry.failsExec then table r.execFailures else .null) ∧
      (entries.any Entry.failsRedirect = false → table r.redirectFailures = .array []) ∧
      (entries.any Entry.failsExec = false → table r.execFailures = .array []) := by
  refine ⟨fun entries entries' hp => ?_, fun handle session before left right w w' hbefore hfits h h' => ?_,
    fun entries entries' n => ?_, fun entries => ⟨fun n => ?_, toJson_ofEntries_without_tables entries⟩⟩
  · have heq := hstart.sound.ofEntries_perm hp
    refine ⟨heq, fun listed hl => ?_⟩
    rw [hl.toJson_arranged (hstart.sound.ofEntries entries'), heq]
  · obtain ⟨hnone, hlength, hreport⟩ := ofEntries_recordedByBoth hstart.sound hbefore hfits h
    obtain ⟨-, -, hreport'⟩ := ofEntries_recordedByBoth hstart.sound hbefore hfits h'
    exact ⟨hnone, hlength, hreport.trans hreport'.symm⟩
  · rw [hstart.value_ofEntries, hstart.value_ofEntries, hstart.value_ofEntries, List.countP_append]
  · exact (Blank.value_ofEntries (.inr rfl) entries n).trans
      (Blank.value_ofEntries (.inl rfl) entries n).symm

/-- A world with an empty log that is open for appending. -/
private def freshLog : World :=
  { disk := { contents := [[]] }
    files := [(1, { source := .disk (.content 0), append := true })] }

/-- A path with a stray byte. -/
private def leftEvent : Event := .redirectFailure { command := some ["cat"], path := [0x80], error := "no" }

private def rightEvent : Event := .commandExit { pid := 7, status := -1, signaled := true }

private def pipeRecorder : Recorder := .file 1 "s"

private def leftFirst : World :=
  pipeRecorder.record "b" rightEvent (pipeRecorder.record "a" leftEvent freshLog)

private def rightFirst : World :=
  pipeRecorder.record "a" leftEvent
    { pipeRecorder.record "b" rightEvent freshLog with clock := 5 }

/-- A redirection that fails on the left of a pipe while a program ends on its right. -/
theorem order_is_irrelevant_pipe :
    leftFirst.held 1 ≠ rightFirst.held 1 ∧
      RecordedByBoth 1 "s" [] [leftEvent] [rightEvent] leftFirst ∧
      RecordedByBoth 1 "s" [] [leftEvent] [rightEvent] rightFirst ∧
      ofEntries empty (Log.read (leftFirst.held 1)).entries =
        ofEntries empty (Log.read (rightFirst.held 1)).entries ∧
      (ofEntries empty (Log.read (leftFirst.held 1)).entries).value .signaled = 1 := by
  have absent {α : Type} {p : α → Prop} : ∀ x ∈ (none : Option α), p x := by simp
  have hzero : Fits64 0 := by simp [Fits64]
  have hfive : Fits64 5 := by simp [Fits64]
  have hfits : ∀ e ∈ [leftEvent] ++ [rightEvent], e.Fits := by
    refine List.forall_mem_cons.mpr ⟨?_, List.forall_mem_singleton.mpr ?_⟩
    · exact ⟨hzero, absent, absent, absent, absent⟩
    · exact ⟨hzero, absent, absent, by rintro x ⟨⟩; simp [Fits64], absent⟩
  have happ : freshLog.Appending 1 (Log.write []) := ⟨0, 0, rfl⟩
  have hrun : Recorded 1 "s" freshLog [leftEvent] (pipeRecorder.record "a" leftEvent freshLog) :=
    .record .start hzero "a" leftEvent
  have hleft : RecordedByBoth 1 "s" [] [leftEvent] [rightEvent] leftFirst :=
    ⟨freshLog, _, happ, .left _ (.right _ .nil), hrun.record hzero "b" rightEvent⟩
  have hrun : Recorded 1 "s" freshLog [rightEvent] (pipeRecorder.record "b" rightEvent freshLog) :=
    .record .start hzero "b" rightEvent
  have hlater : Recorded 1 "s" freshLog [rightEvent]
      { pipeRecorder.record "b" rightEvent freshLog with clock := 5 } := hrun.other rfl
  have hright : RecordedByBoth 1 "s" [] [leftEvent] [rightEvent] rightFirst :=
    ⟨freshLog, _, happ, .right _ (.left _ .nil), hlater.record hfive "a" leftEvent⟩
  obtain ⟨-, hboth, -, -⟩ := order_is_irrelevant (.inl rfl)
  obtain ⟨-, -, hreport⟩ := hboth 1 "s" [] [leftEvent] [rightEvent] leftFirst rightFirst
    (List.forall_mem_nil _) hfits hleft hright
  exact ⟨by decide +kernel, hleft, hright, hreport, by decide +kernel⟩

end Report

end CommandShell
