import CommandShell.Line.Reading

/-! What one lexeme does to the reading state, and runs put together. -/
namespace CommandShell.Line

namespace State
variable (st : State) (sp : Bool)

theorem step_newline : st.step ⟨sp, .newline⟩ =
    if st.level.stage = .idle then some st
    else st.level.endStatement.map fun level => { st with level } := rfl

theorem step_semicolon : st.step ⟨sp, .operator .semicolon⟩ =
    st.level.endStatement.map fun level => { st with level } := rfl

theorem step_pipe : st.step ⟨sp, .operator .pipe⟩ = st.level.stage.tree?.map fun t =>
    { st with level := { st.level with stages := some (joinStages st.level.stages t),
                                       stage := .idle } } := rfl

/-- The kind of the two connectives that bind looser than a pipe. -/
def connectiveKind : Operator → Option Kind
  | .andIf => some .and
  | .orIf => some .or
  | _ => none

theorem step_connective {op : Operator} {kind : Kind} (h : connectiveKind op = some kind) :
    st.step ⟨sp, .operator op⟩ = st.level.stage.tree?.map fun t =>
      { st with level := { done := st.level.done,
                           chain := some (kind, joinChain st.level.chain
                             (joinStages st.level.stages t)) } } := by
  cases op <;> cases h <;> rfl

theorem step_open : st.step ⟨sp, .operator .open⟩ =
    if st.level.stage = .idle then some { level := {}, outer := st.level :: st.outer }
    else none := rfl

theorem step_close : st.step ⟨sp, .operator .close⟩ =
    match st.outer, st.level.tree? with
    | up :: outer, some inner =>
      if inner.isAbsent then none
      else some { level := { up with stage := .reading (.group inner) .none .rest }, outer }
    | _, _ => none := rfl

theorem step_redirect {op : Operator} (h : op ∈ [Operator.less, .great, .dgreat]) :
    st.step ⟨sp, .operator op⟩ = (st.level.stage.redirect op).map fun stage =>
      { st with level := { st.level with stage } } := by
  cases op <;> first | rfl | simp at h

/-- Bare and quoted texts. -/
def isWord : Lexeme → Bool
  | .bare _ _ | .part _ => true
  | _ => false

theorem step_word {x : Lexeme} (h : isWord x = true) :
    st.step ⟨sp, x⟩ = (st.level.stage.word sp x).map fun stage =>
      { st with level := { st.level with stage } } := by
  cases x <;> first | rfl | simp [isWord] at h

theorem run_append (xs ys : List Spaced) : st.run (xs ++ ys) = (st.run xs).bind (·.run ys) := by
  induction xs generalizing st with
  | nil => rfl
  | cons x xs ih =>
    simp only [List.cons_append, State.run, Option.bind_assoc]
    congr 1
    funext next
    exact ih next

/-- The lexemes of each kind, for case splits over a step. -/
theorem lexeme_cases (x : Lexeme) :
    x = .newline ∨ x = .operator .semicolon ∨ x = .operator .pipe ∨
    (∃ op kind, connectiveKind op = some kind ∧ x = .operator op) ∨
    x = .operator .open ∨ x = .operator .close ∨
    (∃ op ∈ [Operator.less, .great, .dgreat], x = .operator op) ∨ isWord x = true := by
  cases x with
  | newline => simp
  | operator op => cases op <;> simp [connectiveKind]
  | bare | part => simp [isWord]

end State

theorem parse_eq_ok_iff {line : Bytes} {t : Tree} : parse line = .ok t ↔ read? line = some t := by
  unfold parse
  split <;> simp_all

/-- A line is accepted when its lexemes lead to a state that can end. -/
theorem read?_eq_some_iff {line : Bytes} {t : Tree} :
    read? line = some t ↔
      ∃ xs st, lexemes line = some xs ∧ State.run {} xs = some st ∧ st.tree? = some t := by
  simp [read?, Option.bind_eq_some_iff]

end CommandShell.Line
