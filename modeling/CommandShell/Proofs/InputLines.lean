import Mathlib.Data.List.TakeWhile
import CommandShell.Session

/-! Lines that are read one after the other lose nothing: what was read and what is left are the input,
wherever reading stops, and the end of input is met when nothing is left. -/
namespace CommandShell.LineInput

/-- Lines as they stand in a text, each with its newline, but for a last one that may have none. -/
def written (unended : Bool) : List Bytes → Bytes
  | [] => []
  | [text] => if unended then text else text ++ [10]
  | text :: more => text ++ 10 :: written unended more

/-- Whether the last line of an input has no newline. -/
def isUnended (input : Bytes) : Bool := !input.isEmpty && input.getLast? != some 10

/-- What is left of an input behind its first newline. -/
def behind (input : Bytes) : Bytes := (input.dropWhile (· != 10)).tail

theorem readLine_nextOf {n : Nat} (line : Bytes) {input : Bytes} (hn : input.length ≤ n) :
    readLine nextOf n line input = (.ok (if line.isEmpty && input.isEmpty then none
      else some (line.reverse ++ input.takeWhile (· != 10))), behind input) := by
  induction input generalizing n line with
  | nil => cases n <;> simp [readLine, nextOf, behind]
  | cons b input ih =>
    obtain ⟨n, rfl⟩ := Nat.exists_eq_succ_of_ne_zero (Nat.ne_zero_of_lt hn)
    by_cases hb : b = 10
    · subst hb
      simp [readLine, nextOf, behind]
    · have hbehind : behind (b :: input) = behind input := by simp [behind, hb]
      have hrest := ih (b :: line) (Nat.le_of_succ_le_succ hn)
      rw [hbehind]
      simpa [readLine, nextOf, hb] using hrest

theorem takeMany_succ (n : Nat) (input : Bytes) : takeMany (n + 1) input =
    ((if input.isEmpty then none else some (input.takeWhile (· != 10))) ::
      (takeMany n (behind input)).1, (takeMany n (behind input)).2) := by
  rw [takeMany, readLine_nextOf [] (Nat.le_succ _)]
  rfl

/-! What one call reads: nothing, a line that has ended, or a last line. -/

theorem takeMany_nil (n : Nat) : takeMany n [] = (List.replicate n none, []) := by
  induction n with
  | zero => rfl
  | succ n ih =>
    have hbehind : behind [] = [] := rfl
    rw [takeMany_succ, hbehind, ih]
    rfl

theorem bne_of_not_mem {text : Bytes} (h : 10 ∉ text) : ∀ b ∈ text, (b != 10) = true :=
  fun _ hb => bne_iff_ne.mpr fun he => h (he ▸ hb)

theorem takeMany_line (n : Nat) {text : Bytes} (h : 10 ∉ text) (rest : Bytes) :
    takeMany (n + 1) (text ++ 10 :: rest) =
      (some text :: (takeMany n rest).1, (takeMany n rest).2) := by
  have hbehind : behind (text ++ 10 :: rest) = rest := by
    rw [behind, List.dropWhile_append_of_pos (bne_of_not_mem h)]
    rfl
  have htext : (text ++ 10 :: rest).takeWhile (· != 10) = text := by
    rw [List.takeWhile_append_of_pos (bne_of_not_mem h)]
    exact List.append_nil text
  rw [takeMany_succ, hbehind, htext, if_neg (by simp)]

theorem takeMany_last (n : Nat) {text : Bytes} (h : 10 ∉ text) (hne : text ≠ []) :
    takeMany (n + 1) text = (some text :: List.replicate n none, []) := by
  have hbehind : behind text = [] := by
    rw [behind, List.dropWhile_eq_nil_iff.mpr (bne_of_not_mem h)]
    rfl
  rw [takeMany_succ, hbehind, takeMany_nil, List.takeWhile_eq_self_iff.mpr (bne_of_not_mem h),
    if_neg (by simpa using hne)]

/-- An input is empty, or begins with a line and its newline, or is a line without one. -/
theorem input_cases (input : Bytes) : input = [] ∨
    (∃ text rest, 10 ∉ text ∧ input = text ++ 10 :: rest) ∨ 10 ∉ input ∧ input ≠ [] := by
  by_cases h : 10 ∈ input
  · obtain ⟨text, rest, rfl, hnot⟩ := List.eq_append_cons_of_mem h
    exact .inr (.inl ⟨text, rest, hnot, rfl⟩)
  · by_cases hempty : input = []
    · exact .inl hempty
    · exact .inr (.inr ⟨h, hempty⟩)

/-- Lines that so many calls read: behind them, every call meets the end of input. -/
structure Taken (n : Nat) (input : Bytes) (texts : List Bytes) : Prop where
  lines : (takeMany n input).1 = texts.map some ++ List.replicate (n - texts.length) none
  bytes : written ((takeMany n input).2.isEmpty && isUnended input) texts ++ (takeMany n input).2 = input
  whole : ∀ text ∈ texts, 10 ∉ text
  count : texts.length = min n (input.count 10 + (isUnended input).toNat)

theorem taken_zero (input : Bytes) : Taken 0 input [] where
  lines := rfl
  bytes := rfl
  whole := by simp
  count := by simp

theorem taken_nil (n : Nat) : Taken n [] [] where
  lines := by simp [takeMany_nil]
  bytes := by simp [takeMany_nil, written]
  whole := by simp
  count := by simp [isUnended]

theorem isUnended_line (text rest : Bytes) : isUnended (text ++ 10 :: rest) = isUnended rest := by
  cases rest with
  | nil => simp [isUnended]
  | cons b rest => simp [isUnended, List.getLast?_cons]

theorem isUnended_last {text : Bytes} (h : 10 ∉ text) (hne : text ≠ []) : isUnended text = true := by
  have hlast : text.getLast? ≠ some 10 := fun he => h (List.mem_of_getLast? he)
  simp [isUnended, hne, hlast]

theorem Taken.line {n : Nat} {text rest : Bytes} {texts : List Bytes} (ht : Taken n rest texts)
    (h : 10 ∉ text) : Taken (n + 1) (text ++ 10 :: rest) (text :: texts) where
  lines := by simp [takeMany_line n h, ht.lines]
  bytes := by
    have hrest := ht.bytes
    rw [takeMany_line n h, isUnended_line]
    cases texts with
    | cons next texts => simpa [written] using hrest
    | nil =>
      -- no line came after this one, so that all of the rest is left
      have hleft : (takeMany n rest).2 = rest := hrest
      cases rest <;> simp [hleft, written, isUnended]
  whole := List.forall_mem_cons.mpr ⟨h, ht.whole⟩
  count := by
    have hcount : (text ++ 10 :: rest).count 10 = rest.count 10 + 1 := by
      rw [List.count_append, List.count_eq_zero_of_not_mem h, List.count_cons_self, Nat.zero_add]
    rw [List.length_cons, ht.count, hcount, isUnended_line]
    omega

theorem taken_last (n : Nat) {text : Bytes} (h : 10 ∉ text) (hne : text ≠ []) :
    Taken (n + 1) text [text] where
  lines := by simp [takeMany_last n h hne]
  bytes := by simp [takeMany_last n h hne, written, isUnended_last h hne]
  whole := by simpa using h
  count := by simp [isUnended_last h hne, List.count_eq_zero_of_not_mem h]

theorem exists_taken (n : Nat) (input : Bytes) : ∃ texts, Taken n input texts := by
  induction n generalizing input with
  | zero => exact ⟨[], taken_zero input⟩
  | succ n ih =>
    obtain rfl | ⟨text, rest, h, rfl⟩ | ⟨h, hne⟩ := input_cases input
    · exact ⟨[], taken_nil _⟩
    · obtain ⟨texts, ht⟩ := ih rest
      exact ⟨text :: texts, ht.line h⟩
    · exact ⟨[input], taken_last n h hne⟩

/-- A call meets the end of input exactly if the calls before it have left nothing to read. -/
theorem getElem?_takeMany_eq_none_iff {n i : Nat} (hi : i < n) (input : Bytes) :
    (takeMany n input).1[i]? = some none ↔ (takeMany i input).2 = [] := by
  induction n generalizing i input with
  | zero => cases hi
  | succ n ih =>
    rw [takeMany_succ]
    cases i with
    | zero => cases input <;> simp [takeMany]
    | succ i =>
      rw [List.getElem?_cons_succ, ih (Nat.lt_of_succ_lt_succ hi), takeMany_succ]

/-- However many calls are made, the lines that they read, with their newlines, and what they leave
are the input, and no line holds a newline. There are as many lines as newlines, and one more for a
last line without one, unless reading stops before. A call meets the end of input exactly if nothing
is left, and then every later call does. -/
theorem lines_and_rest_are_the_input (n : Nat) (input : Bytes) :
    let (lines, rest) := takeMany n input
    ∃ texts : List Bytes,
      lines = texts.map some ++ List.replicate (n - texts.length) none ∧
      written (rest.isEmpty && isUnended input) texts ++ rest = input ∧
      (∀ text ∈ texts, 10 ∉ text) ∧
      texts.length = min n (input.count 10 + if isUnended input then 1 else 0) ∧
      ∀ i < n, lines[i]? = some none ↔ (takeMany i input).2 = [] := by
  obtain ⟨texts, ht⟩ := exists_taken n input
  refine ⟨texts, ht.lines, ht.bytes, ht.whole, ?_, fun i hi => getElem?_takeMany_eq_none_iff hi input⟩
  rw [ht.count]
  cases isUnended input <;> rfl

/-- An empty line and a last line without newline, read to the end and twice more. -/
theorem lines_and_rest_are_the_input_unended :
    let input : Bytes := "one\n\ntwo"
    let texts : List Bytes := ["one", [], "two"]
    takeMany 5 input = (texts.map some ++ [none, none], []) ∧ written true texts = input ∧
      10 ∉ ("two" : Bytes) ∧ (takeMany 2 input).2 = "two" ∧ (takeMany 3 input).2 = [] := by
  intro input texts
  have hrun : takeMany 5 input = (texts.map some ++ [none, none], []) := by decide
  have h := lines_and_rest_are_the_input 5 input
  rw [hrun] at h
  obtain ⟨found, hlines, hbytes, hwhole, hcount, hend⟩ := h
  have hlength : found.length = 3 := hcount.trans (by decide)
  obtain rfl : found = texts := by
    rw [hlength] at hlines
    exact ((List.map_inj_right fun _ _ => Option.some.inj).mp (List.append_cancel_right hlines)).symm
  exact ⟨hrun, (List.append_nil _).symm.trans hbytes, hwhole "two" (by decide), by decide,
    (hend 3 (by decide)).mp rfl⟩

end CommandShell.LineInput
