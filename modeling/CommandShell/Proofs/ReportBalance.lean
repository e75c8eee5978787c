import CommandShell.Event.Log
import CommandShell.Report
import CommandShell.Proofs.Counting

/-! The numbers of a report add up. Whatever a log holds and however far it has been read, each of its
entries is counted under one kind of event, or as invalid if it holds none. -/
namespace CommandShell

/-- The rows a table has counted; none if there is no table. -/
def TableCounter.total? (t : Option TableCounter) : Nat := (t.map TableCounter.total).getD 0

namespace Report

/-- The tables have the columns they are made with. -/
structure Tabled (r : Report) : Prop where
  redirectFailures : ∀ t ∈ r.redirectFailures, t.columns = redirectTable.columns
  execFailures : ∀ t ∈ r.execFailures, t.columns = execTable.columns

/-- Each entry is counted under its kind of event, and what is counted of only some events is never
more than these. -/
structure Balanced (r : Report) : Prop where
  entries : r.entries = r.lines + r.paths.total + r.exitStatuses.total + r.builtinLines.total +
    TableCounter.total? r.redirectFailures + TableCounter.total? r.execFailures + r.invalid.total
  lines : r.lines = r.lineStatuses.total
  names : r.names.total ≤ r.paths.total
  signaled : r.signaled ≤ r.exitStatuses.total
  builtinFailures : r.builtinFailures ≤ r.builtinLines.total
  sessions : r.sessions.total ≤ r.entries

/-- A report before the first entry, with or without its tables. -/
def Blank (r : Report) : Prop := r = empty ∨ r = {}

variable {r : Report}

theorem Blank.tabled (h : r.Blank) : r.Tabled := by
  rcases h with rfl | rfl
  · exact ⟨by rintro t ⟨⟩; rfl, by rintro t ⟨⟩; rfl⟩
  · exact ⟨by rintro t ⟨⟩, by rintro t ⟨⟩⟩

theorem Blank.balanced (h : r.Blank) : r.Balanced := by
  rcases h with rfl | rfl <;> exact ⟨rfl, rfl, le_rfl, le_rfl, le_rfl, le_rfl⟩

/-! One entry. -/

/-- A row with a value for every column is counted. -/
theorem countRow_eq {t : TableCounter} {row : List Bytes} (h : row.length = t.columns.length) :
    countRow t row = some { t with rows := t.rows.increment (TableCounter.rowText row) } := by
  rw [countRow, TableCounter.increment?, if_pos h]
  rfl

theorem columns_getD {t : Option TableCounter} {new : TableCounter}
    (h : ∀ old ∈ t, old.columns = new.columns) : (t.getD new).columns = new.columns := by
  cases t with
  | none => rfl
  | some old => exact h old rfl

theorem Tabled.countRow_redirect (h : r.Tabled) (path error : Bytes) :
    countRow (r.redirectFailures.getD redirectTable) [path, error] =
      some { columns := redirectTable.columns,
             rows := (r.redirectFailures.getD redirectTable).rows.increment
               (TableCounter.rowText [path, error]) } := by
  have hc := columns_getD h.redirectFailures
  rw [countRow_eq (by rw [hc]; rfl), hc]

theorem Tabled.countRow_exec (h : r.Tabled) (name error : Bytes) :
    countRow (r.execFailures.getD execTable) [name, error] =
      some { columns := execTable.columns,
             rows := (r.execFailures.getD execTable).rows.increment
               (TableCounter.rowText [name, error]) } := by
  have hc := columns_getD h.execFailures
  rw [countRow_eq (by rw [hc]; rfl), hc]

/-- A table that does not exist yet counts from nothing. -/
theorem total_getD (t : Option TableCounter) {new : TableCounter} (hnew : new.total = 0) :
    (t.getD new).total = TableCounter.total? t := by
  cases t with
  | none => exact hnew
  | some old => rfl

theorem Tabled.update (h : r.Tabled) (e : Entry) : (r.update e).Tabled := by
  unfold Report.update
  rcases e.event? with _ | event
  · exact ⟨h.redirectFailures, h.execFailures⟩
  · cases event with
    | redirectFailure e =>
      refine ⟨?_, h.execFailures⟩
      dsimp only [countEvent]
      rw [h.countRow_redirect]
      rintro t ⟨⟩
      rfl
    | execFailure e =>
      refine ⟨h.redirectFailures, ?_⟩
      dsimp only [countEvent]
      rw [h.countRow_exec]
      rintro t ⟨⟩
      rfl
    | inputLine | runCommand | commandExit | builtin => exact ⟨h.redirectFailures, h.execFailures⟩

theorem Balanced.update (h : r.Balanced) (ht : r.Tabled) (e : Entry) : (r.update e).Balanced := by
  obtain ⟨hentries, hlines, hnames, hsignaled, hfailures, hsessions⟩ := h
  have hsession : (if e.session.isEmpty then r.sessions else r.sessions.increment e.session).total ≤
      r.entries + 1 := by
    split
    · exact hsessions.trans (Nat.le_succ _)
    · rw [Counter.total_increment]
      exact Nat.succ_le_succ hsessions
  unfold Report.update
  rcases e.event? with _ | event
  · refine ⟨?_, hlines, hnames, hsignaled, hfailures, hsession⟩
    simp only [Counter.total_increment]
    omega
  · cases event with
    | inputLine e =>
      refine ⟨?_, ?_, hnames, hsignaled, hfailures, hsession⟩
      · simp only [countEvent]
        omega
      · simp only [countEvent, Counter.total_increment, hlines]
    | runCommand e =>
      refine ⟨?_, hlines, ?_, hsignaled, hfailures, hsession⟩
      · simp only [countEvent, Counter.total_increment]
        omega
      · -- a command without words has a path and no name
        simp only [countEvent, Counter.total_increment]
        split
        · exact hnames.trans (Nat.le_succ _)
        · rw [Counter.total_increment]
          exact Nat.succ_le_succ hnames
    | commandExit e =>
      refine ⟨?_, hlines, hnames, ?_, hfailures, hsession⟩
      · simp only [countEvent, Counter.total_increment]
        omega
      · simp only [countEvent, Counter.total_increment]
        split <;> omega
    | builtin e =>
      refine ⟨?_, hlines, hnames, hsignaled, ?_, hsession⟩
      · simp only [countEvent, Counter.total_increment]
        omega
      · simp only [countEvent, Counter.total_increment]
        split <;> omega
    | redirectFailure e =>
      have htotal : (r.redirectFailures.getD redirectTable).total = _ := total_getD r.redirectFailures rfl
      refine ⟨?_, hlines, hnames, hsignaled, hfailures, hsession⟩
      simp only [countEvent, ht.countRow_redirect, TableCounter.total?, Option.map_some,
        Option.getD_some, TableCounter.total, Counter.total_increment] at htotal hentries ⊢
      omega
    | execFailure e =>
      have htotal : (r.execFailures.getD execTable).total = _ := total_getD r.execFailures rfl
      refine ⟨?_, hlines, hnames, hsignaled, hfailures, hsession⟩
      simp only [countEvent, ht.countRow_exec, TableCounter.total?, Option.map_some,
        Option.getD_some, TableCounter.total, Counter.total_increment] at htotal hentries ⊢
      omega

theorem entries_update (r : Report) (e : Entry) : (r.update e).entries = r.entries + 1 := by
  unfold Report.update
  rcases e.event? with _ | event
  · rfl
  · cases event <;> rfl

/-! Many entries. -/

theorem Tabled.ofEntries (h : r.Tabled) (entries : List Entry) : (ofEntries r entries).Tabled := by
  induction entries generalizing r with
  | nil => exact h
  | cons e entries ih => exact ih (h.update e)

theorem Balanced.ofEntries (h : r.Balanced) (ht : r.Tabled) (entries : List Entry) :
    (ofEntries r entries).Balanced := by
  induction entries generalizing r with
  | nil => exact h
  | cons e entries ih => exact ih (h.update ht e) (ht.update e)

theorem entries_ofEntries (r : Report) (entries : List Entry) :
    (ofEntries r entries).entries = r.entries + entries.length := by
  induction entries generalizing r with
  | nil => rfl
  | cons e entries ih =>
    have hrest := ih (r.update e)
    rw [entries_update, Nat.add_assoc, Nat.add_comm 1] at hrest
    exact hrest

/-- Whatever the text of a log is, and however many of the entries that are read from it have been
counted, also if reading it fails behind them: the report has counted just so many, and its numbers
add up. -/
theorem every_entry_counts_once {start : Report} (hstart : start.Blank) (text : Bytes) (n : Nat) :
    let report := ofEntries start ((Log.read text).entries.take n)
    report.entries = min n (Log.read text).entries.length ∧ report.Balanced := by
  intro report
  refine ⟨?_, hstart.balanced.ofEntries hstart.tabled _⟩
  have hzero : start.entries = 0 := by rcases hstart with rfl | rfl <;> rfl
  rw [entries_ofEntries, hzero, Nat.zero_add, List.length_take]

/-- An entry with two events and a command without words, one with nothing set, one for a file that
could not be opened, and a text that breaks off. -/
theorem every_entry_counts_once_broken :
    let text : Bytes := "\x7b\"run_command\":\x7b\"command\":[]\x7d,\"builtin\":\x7b\x7d\x7dnull" ++
      "\x7b\"session_id\":\"s\",\"redirect_failure\":\x7b\"path\":\"p\"\x7d\x7d\n\x7b\"bui"
    let report := ofEntries {} ((Log.read text).entries.take 3)
    (Log.read text).failure = some (.malformed .ended) ∧ (Log.read text).entries.length = 3 ∧
      report.entries = 3 ∧ report.paths.total = 1 ∧ report.invalid.total = 1 ∧
      TableCounter.total? report.redirectFailures = 1 ∧ report.Balanced := by
  intro text report
  have hlength : (Log.read text).entries.length = 3 := by decide +kernel
  obtain ⟨hentries, hbalanced⟩ := every_entry_counts_once (.inr rfl) text 3
  refine ⟨by decide +kernel, hlength, ?_, by decide +kernel, by decide +kernel, by decide +kernel,
    hbalanced⟩
  rw [hentries, hlength]
  rfl

end Report

end CommandShell
