import CommandShell.Proofs.EntryText
import Mathlib

/-! A log that was cut anywhere. Every entry that is complete is read, and the rest of the log is an
error only if it breaks off inside an object. -/
namespace CommandShell

open Json

namespace Entry

/-- The line of an entry without its newline. -/
def object (e : Entry) : Bytes := e.toJson.write true

theorem line_append (e : Entry) (s : Bytes) : e.line ++ s = e.object ++ 10 :: s := by
  rw [line, List.append_assoc]
  rfl

theorem object_eq (e : Entry) : ∃ body, e.object = 123 :: (body ++ [125]) :=
  ⟨_, write_object true _⟩

theorem length_object_pos (e : Entry) : 0 < e.object.length := by
  obtain ⟨body, he⟩ := e.object_eq
  rw [he]
  exact Nat.succ_pos _

theorem getLast?_object (e : Entry) : e.object.getLast? = some 125 := by
  obtain ⟨body, he⟩ := e.object_eq
  rw [he, ← List.cons_append, List.getLast?_concat]

section
variable {e : Entry} (h : e.Proper)
include h

theorem newline_not_mem_object : 10 ∉ e.object := h.toJson.nested.newline_not_mem true

theorem readFirst_object (rest : Bytes) : readFirst (e.object ++ rest) = .ok (e.toJson, rest) :=
  Json.readFirst_object true h.toJson (by decide) rest

theorem readFirst_part {n : Nat} (hpos : 0 < n) (hlt : n < e.object.length) :
    readFirst (e.object.take n) = .error .ended := by
  refine readFirst_cut true h.toJson (by decide) ?_ ?_ (List.take_append_drop n e.object).symm
  · exact List.ne_nil_of_length_pos (by rw [List.length_take]; omega)
  · exact List.ne_nil_of_length_pos (by rw [List.length_drop]; omega)

end

end Entry

namespace Log

/-! Places in the text of a log. -/

/-- Where the line of an entry starts. -/
def start (entries : List Entry) (i : Fin entries.length) : Nat := (write (entries.take i)).length

/-- Where the object of an entry ends, behind its closing brace. -/
def finish (entries : List Entry) (i : Fin entries.length) : Nat :=
  start entries i + (entries.get i).object.length

/-- A cut strictly inside the object of an entry. -/
def Inside (entries : List Entry) (n : Nat) : Prop :=
  ∃ i, start entries i < n ∧ n < finish entries i

/-- The entries whose closing brace lies before a cut. -/
def closed (entries : List Entry) (n : Nat) : List Entry :=
  ((List.finRange entries.length).filter fun i => finish entries i ≤ n).map entries.get

section
variable (e : Entry) (entries : List Entry)

theorem write_cons : write (e :: entries) = e.object ++ 10 :: write entries := by
  rw [write, List.flatMap_cons, Entry.line_append]
  rfl

theorem start_succ (i : Fin entries.length) :
    start (e :: entries) i.succ = e.object.length + 1 + start entries i := by
  rw [start, Fin.val_succ, List.take_succ_cons, write_cons, List.length_append, List.length_cons,
    start]
  omega

theorem finish_zero :
    finish (e :: entries) (0 : Fin (entries.length + 1)) = e.object.length := Nat.zero_add _

theorem finish_succ (i : Fin entries.length) :
    finish (e :: entries) i.succ = e.object.length + 1 + finish entries i := by
  rw [finish, start_succ, finish, List.get_cons_succ', Nat.add_assoc]

theorem finish_pos (i : Fin entries.length) : 0 < finish entries i :=
  Nat.add_pos_right _ (Entry.length_object_pos _)

theorem closed_zero : closed entries 0 = [] := by
  rw [closed, List.map_eq_nil_iff, List.filter_eq_nil_iff]
  intro i _
  simpa using (finish_pos entries i).ne'

theorem closed_cons (n : Nat) :
    closed (e :: entries) n =
      if e.object.length ≤ n then e :: closed entries (n - (e.object.length + 1)) else [] := by
  have hfin : List.finRange (e :: entries).length =
      0 :: (List.finRange entries.length).map Fin.succ := List.finRange_succ
  have hrest : (((List.finRange entries.length).map Fin.succ).filter fun i =>
      finish (e :: entries) i ≤ n).map (e :: entries).get =
      closed entries (n - (e.object.length + 1)) := by
    rw [List.filter_map, List.map_map, closed]
    refine congrArg (List.map _) (List.filter_congr fun i _ => ?_)
    have hpos := finish_pos entries i
    rw [Function.comp_apply, finish_succ, decide_eq_decide]
    omega
  rw [closed, hfin, List.filter_cons, finish_zero]
  by_cases hle : e.object.length ≤ n
  · rw [if_pos (decide_eq_true hle), if_pos hle, List.map_cons, hrest]
    rfl
  · rw [if_neg (by simpa using hle), if_neg hle, hrest, Nat.sub_eq_zero_of_le (by omega),
      closed_zero]

theorem inside_cons (n : Nat) :
    Inside (e :: entries) n ↔
      0 < n ∧ n < e.object.length ∨ Inside entries (n - (e.object.length + 1)) := by
  refine Fin.exists_fin_succ.trans (or_congr ?_ (exists_congr fun i => ?_))
  · rw [finish_zero]
    rfl
  · rw [start_succ, finish_succ]
    omega

end

theorem not_inside_zero (entries : List Entry) : ¬ Inside entries 0 := by
  rintro ⟨i, hi, -⟩
  exact Nat.not_lt_zero _ hi

/-! Reading. -/

theorem go_nil (f : Nat) : go f [] = ⟨[], none⟩ := by cases f <;> rfl

theorem go_newline (f : Nat) (s : Bytes) : go f (10 :: s) = go f s := by
  cases f with
  | zero => rfl
  | succ f => rw [go, go, List.dropWhile_cons_of_pos rfl]

section
variable {e : Entry} (h : e.Proper)
include h

theorem go_object (f : Nat) (rest : Bytes) :
    go (f + 1) (e.object ++ rest) = (go f rest).cons e.readBack := by
  have hread := Entry.readFirst_object h rest
  obtain ⟨body, he⟩ := e.object_eq
  rw [he, List.cons_append] at hread ⊢
  rw [go, List.dropWhile_cons_of_neg (by decide)]
  simp only [hread, Entry.ofJson_toJson h]
  rfl

theorem go_part (f : Nat) {n : Nat} (hpos : 0 < n) (hlt : n < e.object.length) :
    go (f + 1) (e.object.take n) = ⟨[], some (.malformed .ended)⟩ := by
  have hread := Entry.readFirst_part h hpos hlt
  obtain ⟨body, he⟩ := e.object_eq
  obtain ⟨n, rfl⟩ := Nat.exists_eq_succ_of_ne_zero hpos.ne'
  rw [he, List.take_succ_cons] at hread ⊢
  rw [go, List.dropWhile_cons_of_neg (by decide)]
  simp only [hread]
  rfl

end

/-- Reading goes on behind every complete line, up to the line with the cut. -/
theorem go_take {entries : List Entry} (h : ∀ e ∈ entries, e.Proper) (n : Nat) {f : Nat}
    (hf : ((write entries).take n).length < f) :
    (go f ((write entries).take n)).entries = (closed entries n).map Entry.readBack ∧
      ((go f ((write entries).take n)).failure ≠ none ↔ Inside entries n) := by
  induction entries generalizing n f with
  | nil =>
    rw [write, List.flatMap_nil, List.take_nil, go_nil]
    exact ⟨rfl, by simp [Inside]⟩
  | cons e entries ih =>
    obtain ⟨he, hes⟩ := List.forall_mem_cons.mp h
    obtain ⟨f, rfl⟩ := Nat.exists_eq_add_one_of_ne_zero (Nat.ne_zero_of_lt hf)
    rw [write_cons] at hf ⊢
    rw [closed_cons, inside_cons]
    rcases Nat.lt_or_ge n e.object.length with hlt | hge
    · -- the cut is in the first line: nothing of it or a part of its object
      rw [List.take_append_of_le_length hlt.le, if_neg (by omega),
        Nat.sub_eq_zero_of_le (by omega)]
      rcases Nat.eq_zero_or_pos n with rfl | hpos
      · rw [List.take_zero, go_nil]
        simp [not_inside_zero]
      · rw [go_part he f hpos hlt]
        simp [hpos, hlt]
    rw [if_pos hge]
    obtain rfl | ⟨m, rfl⟩ : n = e.object.length ∨ ∃ m, n = e.object.length + (m + 1) := by
      rcases hge.eq_or_lt with heq | hgt
      · exact .inl heq.symm
      · exact .inr ⟨n - e.object.length - 1, by omega⟩
    · -- only the newline is missing
      have hread := go_object he f []
      rw [List.append_nil, go_nil] at hread
      rw [List.take_left, hread, Nat.sub_eq_zero_of_le (Nat.le_succ _), closed_zero]
      simp [not_inside_zero, Contents.cons]
    · rw [List.take_length_add_append, List.take_succ_cons] at hf ⊢
      rw [List.length_append, List.length_cons] at hf
      obtain ⟨hentries, hfailure⟩ := ih hes m (f := f) (by omega)
      have hrest : e.object.length + (m + 1) - (e.object.length + 1) = m := by omega
      rw [go_object he, go_newline, hrest]
      refine ⟨congrArg (e.readBack :: ·) hentries, hfailure.trans (or_iff_right ?_).symm⟩
      omega

/-! Newlines. -/

theorem count_newline_write {entries : List Entry} (h : ∀ e ∈ entries, e.Proper) :
    (write entries).count 10 = entries.length := by
  induction entries with
  | nil => rfl
  | cons e entries ih =>
    obtain ⟨he, hes⟩ := List.forall_mem_cons.mp h
    rw [write_cons, List.count_append, List.count_cons_self, ih hes,
      List.count_eq_zero.mpr (Entry.newline_not_mem_object he), Nat.zero_add, List.length_cons]

theorem newline_write_iff {entries : List Entry} (h : ∀ e ∈ entries, e.Proper) (p : Nat) :
    (write entries)[p]? = some 10 ↔ ∃ i, p = finish entries i := by
  induction entries generalizing p with
  | nil => simp [write]
  | cons e entries ih =>
    obtain ⟨he, hes⟩ := List.forall_mem_cons.mp h
    have hshift : (∃ i, p = finish (e :: entries) i) ↔
        p = e.object.length ∨ ∃ i, p = e.object.length + 1 + finish entries i := by
      refine Fin.exists_fin_succ.trans (or_congr (by rw [finish_zero]) ?_)
      simp only [finish_succ]
    rw [hshift, write_cons]
    rcases Nat.lt_trichotomy p e.object.length with hlt | rfl | hgt
    · rw [List.getElem?_append_left hlt]
      refine iff_of_false (fun hp => ?_) (by rintro (rfl | ⟨i, rfl⟩) <;> omega)
      exact Entry.newline_not_mem_object he (List.mem_of_getElem? hp)
    · rw [List.getElem?_append_right le_rfl, Nat.sub_self]
      exact iff_of_true rfl (.inl rfl)
    · obtain ⟨q, rfl⟩ := Nat.exists_eq_add_of_le hgt
      have hq : e.object.length + 1 + q - e.object.length = q + 1 := by omega
      rw [List.getElem?_append_right (by omega), hq, List.getElem?_cons_succ, ih hes,
        or_iff_right (by omega)]
      simp only [Nat.add_left_cancel_iff]

/-- A line stands between the lines before it and those behind it. -/
theorem write_eq (entries : List Entry) (i : Fin entries.length) :
    write entries = write (entries.take i) ++
      ((entries.get i).object ++ 10 :: write (entries.drop (i + 1))) := by
  rw [← write_cons, List.get_eq_getElem, List.getElem_cons_drop, write, write, write,
    ← List.flatMap_append, List.take_append_drop]

theorem extract_write (entries : List Entry) (i : Fin entries.length) :
    (write entries).extract (start entries i) (finish entries i) = (entries.get i).object := by
  rw [List.extract_eq_take_drop, write_eq entries i, start, List.drop_left, finish, start,
    Nat.add_sub_cancel_left, List.take_left]

theorem brace_write (entries : List Entry) (i : Fin entries.length) :
    (write entries)[finish entries i - 1]? = some 125 := by
  have hpos := (entries.get i).length_object_pos
  have hlast := (entries.get i).getLast?_object
  rw [List.getLast?_eq_getElem?] at hlast
  rw [write_eq entries i, finish, start, Nat.add_sub_assoc hpos,
    List.getElem?_append_right (Nat.le_add_right _ _), Nat.add_sub_cancel_left,
    List.getElem?_append_left (by omega), hlast]

theorem finish_le (entries : List Entry) (i : Fin entries.length) :
    finish entries i ≤ (write entries).length := by
  rw [write_eq entries i, List.length_append, List.length_append, finish, start]
  omega

theorem closed_length_write (entries : List Entry) :
    closed entries (write entries).length = entries := by
  have hall : ∀ i ∈ List.finRange entries.length,
      decide (finish entries i ≤ (write entries).length) = true :=
    fun i _ => decide_eq_true (finish_le entries i)
  rw [closed, List.filter_eq_self.mpr hall, List.map_get_finRange]

theorem not_inside_length_write (entries : List Entry) :
    ¬ Inside entries (write entries).length := by
  rintro ⟨i, -, hlt⟩
  exact absurd (finish_le entries i) (Nat.not_le_of_lt hlt)

theorem read_write {entries : List Entry} (h : ∀ e ∈ entries, e.Proper) :
    read (write entries) = ⟨entries.map Entry.readBack, none⟩ := by
  obtain ⟨hentries, hfailure⟩ := go_take h (write entries).length (Nat.lt_succ_self _)
  rw [List.take_length] at hentries hfailure
  rw [closed_length_write] at hentries
  have hnone := not_ne_iff.mp (hfailure.not.mpr (not_inside_length_write entries))
  exact congrArg₂ Contents.mk hentries hnone

/-- A log survives being cut. It has one newline for every entry, right behind the object, and of any
beginning of it the entries with their closing brace are read; there is an error if and only if the
cut is strictly inside an object. -/
theorem survives_cut {entries : List Entry} (h : ∀ e ∈ entries, e.Proper) :
    (write entries).count 10 = entries.length ∧
    (∀ p, (write entries)[p]? = some 10 ↔ ∃ i, p = finish entries i) ∧
    (∀ i, (write entries).extract (start entries i) (finish entries i) = (entries.get i).object ∧
      (write entries)[finish entries i - 1]? = some 125) ∧
    (∀ n, (read ((write entries).take n)).entries = (closed entries n).map Entry.readBack ∧
      ((read ((write entries).take n)).failure ≠ none ↔ Inside entries n)) ∧
    read (write entries) = ⟨entries.map Entry.readBack, none⟩ :=
  ⟨count_newline_write h, newline_write_iff h,
    fun i => ⟨extract_write entries i, brace_write entries i⟩,
    fun n => go_take h n (Nat.lt_succ_self _), read_write h⟩

/-- An entry with two events, texts that need escapes and a command without words, and one with
nothing in it. -/
def sample : List Entry :=
  [{ time := -1
     session := "s"
     inputLine := some { line := "<é>\n", status := 7 }
     redirectFailure := some { command := some [], path := "\"", error := "é" } },
   {}]

theorem proper_sample : ∀ e ∈ sample, e.Proper := by
  have absent {α : Type} {p : α → Prop} : ∀ x ∈ (none : Option α), p x := by simp
  have hline : ({ line := "<é>\n", status := 7 } : InputLine).Proper := by
    refine ⟨?_, by simp [Fits64]⟩
    exact (Utf8.isValid_ascii _ (by decide)).trans <|
      (Utf8.isValid_pair _ (by decide) (by decide)).trans (Utf8.isValid_of_ascii (by decide))
  have hfailure : ({ command := some [], path := "\"", error := "é" } : RedirectFailure).Proper := by
    refine ⟨by simp [ValidWords], Utf8.isValid_of_ascii (by decide), ?_⟩
    exact (Utf8.isValid_pair _ (by decide) (by decide)).trans Utf8.isValid_nil
  refine List.forall_mem_cons.mpr ⟨?_, List.forall_mem_singleton.mpr ?_⟩
  · exact ⟨by simp [Fits64], Utf8.isValid_of_ascii (by decide), by simpa using hline, absent, absent,
      absent, by simpa using hfailure, absent⟩
  · exact ⟨by simp [Fits64], Utf8.isValid_nil, absent, absent, absent, absent, absent, absent⟩

theorem survives_cut_sample :
    (∀ e ∈ sample, e.Proper) ∧ (write sample).count 10 = 2 ∧
      (read ((write sample).take 20)).failure ≠ none ∧
      (read (write sample)).entries = sample.map Entry.readBack := by
  obtain ⟨hcount, -, -, hcut, hwhole⟩ := survives_cut proper_sample
  refine ⟨proper_sample, hcount, (hcut 20).2.mpr ⟨⟨0, by decide⟩, ?_, ?_⟩, by rw [hwhole]⟩
  · decide
  · cbv

end Log

end CommandShell
