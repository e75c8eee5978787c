import CommandShell.Proofs.AcceptedTree
import CommandShell.Proofs.ExpansionFree
import CommandShell.Proofs.LexemeSeam

/-! Two accepted texts with a newline between them are accepted together. The statements of the
second follow those of the first, unless the first meets the end of what is read. -/
namespace CommandShell
open Line (joinDone)

namespace Tree

/-- The statements of a list, which leans left. -/
def statements : Tree → List Tree
  | absent => []
  | node .sequence _ _ left right => left.statements ++ [right]
  | t => [t]

/-- The statements of a second list behind those of a first. -/
def followedBy (first second : Tree) : Tree := second.statements.foldl joinDone first

@[simp] theorem followedBy_absent (first : Tree) : first.followedBy absent = first := rfl

theorem statements_of_chain {t : Tree} (h : Fits .chain t) : t.statements = [t] := by
  have hk := h.kind_of_chain
  have ha := h.isAbsent_eq_false
  cases t with
  | absent => simp at ha
  | node kind => cases kind <;> first | rfl | exact absurd rfl hk

/-- One more statement of the second list is one more statement of both. -/
theorem followedBy_joinDone (first second : Tree) {t : Tree} (ht : Fits .chain t) :
    first.followedBy (joinDone second t) = joinDone (first.followedBy second) t := by
  cases second with
  | absent =>
    change t.statements.foldl joinDone first = joinDone first t
    rw [statements_of_chain ht]
    rfl
  | node kind argv files l r =>
    change ((node kind argv files l r).statements ++ [t]).foldl joinDone first = _
    rw [List.foldl_append]
    rfl

theorem absent_followedBy {t : Tree} (h : Fits .list t) : absent.followedBy t = t := by
  induction t with
  | absent => rfl
  | node kind argv files l r ihl _ =>
    cases h with
    | chain hc =>
      change (node kind argv files l r).statements.foldl joinDone absent = _
      rw [statements_of_chain hc]
      rfl
    | sequence hl hr =>
      have hj : joinDone l r = sequence l r := if_neg (by simp [hl.isAbsent_eq_false])
      change absent.followedBy (sequence l r) = sequence l r
      rw [← hj, followedBy_joinDone absent l hr, ihl hl]

end Tree

namespace Line
open CommandShell.Tree (Fits)

/-- The level with something else done before its statement in progress. -/
def Level.mapDone (g : Tree → Tree) (lv : Level) : Level := { lv with done := g lv.done }

/-- A change to a list that does not touch its last statement. -/
def KeepsLast (g : Tree → Tree) : Prop :=
  ∀ done t, Fits .chain t → g (joinDone done t) = joinDone (g done) t

theorem keepsLast_followedBy (first : Tree) : KeepsLast first.followedBy :=
  fun done _ => first.followedBy_joinDone done

theorem Level.endStatement_mapDone {g : Tree → Tree} {lv : Level} (hg : KeepsLast g)
    (hs : lv.Sound) : (lv.mapDone g).endStatement = lv.endStatement.map (·.mapDone g) := by
  unfold Level.endStatement
  cases ht : lv.stage.tree? with
  | none => simp [mapDone, ht]
  | some t =>
    have hc := hs.joinChain (lv.stage.tree?_fits hs.stage ht)
    simp [mapDone, ht, hg _ _ hc]

theorem Level.tree?_mapDone {g : Tree → Tree} {lv : Level} (hg : KeepsLast g) (hs : lv.Sound) :
    (lv.mapDone g).tree? = lv.tree?.map g := by
  have he := lv.endStatement_mapDone hg hs
  unfold Level.tree?
  cases hst : lv.stage with
  | idle =>
    simp only [mapDone, hst]
    split <;> rfl
  | reading base files focus =>
    simp only [mapDone, hst] at he ⊢
    rw [he, Option.map_map, Option.map_map]
    rfl

/-- Two stacks of levels that differ only at the bottom, where `first` comes before the
statements. -/
inductive StackBehind (first : Tree) : List Level → List Level → Prop
  | bottom (lv : Level) : StackBehind first [lv] [lv.mapDone first.followedBy]
  | push (lv : Level) {levels levels' : List Level} (h : StackBehind first levels levels') :
      StackBehind first (lv :: levels) (lv :: levels')

namespace StackBehind
variable {first : Tree} {lv lv' : Level} {outer outer' : List Level}

/-- Whether or not the top is the bottom, the tops differ in what is done, and may be replaced. -/
theorem top (h : StackBehind first (lv :: outer) (lv' :: outer')) :
    ∃ g, KeepsLast g ∧ lv' = lv.mapDone g ∧
      ∀ next, StackBehind first (next :: outer) (next.mapDone g :: outer') := by
  cases h with
  | bottom => exact ⟨first.followedBy, keepsLast_followedBy first, rfl, .bottom⟩
  | push _ h => exact ⟨id, fun _ _ _ => rfl, rfl, fun next => .push next h⟩

theorem pop {up : Level} (h : StackBehind first (lv :: up :: outer) (lv' :: outer')) :
    lv' = lv ∧ ∃ up' rest, outer' = up' :: rest ∧
      StackBehind first (up :: outer) (up' :: rest) := by
  cases h with
  | push _ h =>
    refine ⟨rfl, ?_⟩
    cases h with
    | bottom => exact ⟨_, _, rfl, .bottom up⟩
    | push _ h => exact ⟨_, _, rfl, .push up h⟩

end StackBehind

namespace State

/-- A state, and the state that the same lexemes lead to behind `first`. -/
def Behind (first : Tree) (st st' : State) : Prop :=
  StackBehind first (st.level :: st.outer) (st'.level :: st'.outer)

variable {first : Tree} {st st' : State}

/-- Both states take a lexeme the same way. -/
theorem Behind.step {next : State} {x : Spaced} (hs : st.Sound) (h : Behind first st st')
    (hx : st.step x = some next) : ∃ next', st'.step x = some next' ∧ Behind first next next' := by
  obtain ⟨lv, outer⟩ := st
  obtain ⟨lv', outer'⟩ := st'
  obtain ⟨sp, x⟩ := x
  have hsound : lv.Sound := hs.level
  have hstack : StackBehind first (lv :: outer) (lv' :: outer') := h
  obtain ⟨g, hg, rfl, replace⟩ := hstack.top
  have ended (hx : lv.endStatement.map (fun level => State.mk level outer) = some next) :
      ∃ next', (lv.mapDone g).endStatement.map (fun level => State.mk level outer') = some next' ∧
        Behind first next next' := by
    obtain ⟨level, he, rfl⟩ := Option.map_eq_some_iff.mp hx
    refine ⟨⟨level.mapDone g, outer'⟩, ?_, replace level⟩
    rw [lv.endStatement_mapDone hg hsound, he]
    rfl
  obtain rfl | rfl | rfl | ⟨op, kind, hop, rfl⟩ | rfl | rfl | ⟨op, hop, rfl⟩ | hword :=
    lexeme_cases x
  · rw [step_newline] at hx ⊢
    split at hx
    · next hidle =>
      cases hx
      exact ⟨⟨lv.mapDone g, outer'⟩, if_pos hidle, replace lv⟩
    · next hidle =>
      have hidle' : ¬ (lv.mapDone g).stage = .idle := hidle
      rw [if_neg hidle']
      exact ended hx
  · exact ended hx
  · obtain ⟨t, ht, rfl⟩ := Option.map_eq_some_iff.mp hx
    refine ⟨⟨Level.mapDone g _, outer'⟩, ?_, replace _⟩
    rw [step_pipe]
    exact congrArg (Option.map _) ht
  · rw [step_connective _ _ hop] at hx ⊢
    obtain ⟨t, ht, rfl⟩ := Option.map_eq_some_iff.mp hx
    exact ⟨⟨Level.mapDone g _, outer'⟩, congrArg (Option.map _) ht, replace _⟩
  · rw [step_open] at hx ⊢
    split at hx
    · next hidle =>
      cases hx
      exact ⟨⟨{}, lv.mapDone g :: outer'⟩, if_pos hidle, .push {} (replace lv)⟩
    · cases hx
  · rw [step_close] at hx
    split at hx
    · next up rest inner ho hi =>
      split at hx
      · cases hx
      · next hp =>
        cases hx
        obtain rfl : outer = up :: rest := ho
        -- The closing level is not the bottom, so both runs have the same group here.
        obtain ⟨hsame, up', rest', rfl, hrest⟩ := hstack.pop
        obtain ⟨g', -, rfl, replace'⟩ := hrest.top
        have hi' : (lv.mapDone g).tree? = some inner := (congrArg Level.tree? hsame).trans hi
        refine ⟨⟨Level.mapDone g' _, rest'⟩, ?_, replace' _⟩
        rw [step_close]
        simp only [hi', if_neg hp]
        rfl
    · cases hx
  · rw [step_redirect _ _ hop] at hx ⊢
    obtain ⟨stage, hst, rfl⟩ := Option.map_eq_some_iff.mp hx
    exact ⟨⟨Level.mapDone g _, outer'⟩, congrArg (Option.map _) hst, replace _⟩
  · rw [step_word _ _ hword] at hx ⊢
    obtain ⟨stage, hst, rfl⟩ := Option.map_eq_some_iff.mp hx
    exact ⟨⟨Level.mapDone g _, outer'⟩, congrArg (Option.map _) hst, replace _⟩

theorem Behind.run {last : State} {xs : List Spaced} (hs : st.Sound) (h : Behind first st st')
    (hx : st.run xs = some last) : ∃ last', st'.run xs = some last' ∧ Behind first last last' := by
  induction xs generalizing st st' with
  | nil =>
    cases hx
    exact ⟨st', rfl, h⟩
  | cons x xs ih =>
    obtain ⟨next, hstep, hx⟩ := Option.bind_eq_some_iff.mp hx
    obtain ⟨next', hstep', hn⟩ := h.step hs hstep
    obtain ⟨last', hrun, hl⟩ := ih (hs.step hstep) hn hx
    refine ⟨last', ?_, hl⟩
    rw [State.run, hstep']
    exact hrun

theorem Behind.tree? {t : Tree} (hs : st.Sound) (h : Behind first st st') (ht : st.tree? = some t) :
    st'.tree? = some (first.followedBy t) := by
  obtain ⟨lv, outer⟩ := st
  obtain ⟨lv', outer'⟩ := st'
  cases outer with
  | cons up outer => cases ht
  | nil =>
    cases h with
    | push _ h => cases h
    | bottom =>
      have ht' : lv.tree? = some t := ht
      change (lv.mapDone first.followedBy).tree? = _
      rw [lv.tree?_mapDone (keepsLast_followedBy first) hs.level, ht']
      rfl

/-- At a newline, a state that could end starts the next statement. -/
theorem step_newline_of_tree? {t : Tree} (sp : Bool) (h : st.tree? = some t) :
    st.step ⟨sp, .newline⟩ = some { level := { done := t } } := by
  obtain ⟨lv, outer⟩ := st
  cases outer with
  | cons up outer => cases h
  | nil =>
    have ht : lv.tree? = some t := h
    rw [step_newline]
    unfold Level.tree? at ht
    obtain ⟨done, chain, stages, stage⟩ := lv
    cases stage with
    | idle =>
      cases chain <;> cases stages <;> cases ht
      rfl
    | reading base files focus =>
      rw [if_neg (by simp)]
      obtain ⟨lv', he, rfl⟩ := Option.map_eq_some_iff.mp ht
      obtain ⟨t, -, rfl⟩ := Option.map_eq_some_iff.mp he
      rw [he]
      rfl

end State

/-- The lexemes of two texts with a newline between them. -/
theorem lexemes_newline {a b : Bytes} {xs : List Spaced} (ha : lexemes a = some xs) (nul : 0 ∉ a)
    (cr : 13 ∉ a) (last : a.getLast? ≠ some 92) :
    if closes a then lexemes (a ++ 10 :: b) = some xs
    else ∃ sp, lexemes (a ++ 10 :: b) = (lexemes b).map (xs ++ ⟨sp, .newline⟩ :: ·) := by
  cases valid : Utf8.isValid a with
  | false =>
    rw [if_pos (closes_of_bad ha valid), lexemes_eq_scan, lineMarks_of_bad b valid (by decide),
      ← ha]
    rfl
  | true =>
    have hmarks : lineMarks a = marks false a := if_pos valid
    have hcut : lineMarks (a ++ 10 :: b) = lineMarks a ++ .byte 10 :: lineMarks b := by
      rw [hmarks]
      refine lineMarks_append b valid (by decide) (by decide) fun _ => ⟨last, ?_⟩
      exact fun hl => cr (List.mem_of_getLast? hl)
    have hl : (lineMarks a).getLast? ≠ some (.byte 92) := by
      rw [hmarks]
      exact marks_last nul cr last
    have hseam : Seam 10 .newline false false (lineMarks a) xs :=
      scan_seam divider_newline ha fun _ => hl
    rw [lexemes_eq_scan (a ++ 10 :: b), hcut]
    cases hseam with
    | apart sp walk joined =>
      rw [if_neg (mt (closes_iff valid).mp walk)]
      exact ⟨sp, joined _⟩
    | closed walk joined =>
      rw [if_pos ((closes_iff valid).mpr walk)]
      exact joined _
    | hidden newline => exact absurd rfl newline

/-- Parsing composes over a newline: the statements of the second text follow those of the first.
Only behind the end of what is read is the second text not looked at. -/
theorem parse_newline {a b : Bytes} {ta tb : Tree} (ha : parse a = .ok ta) (hb : parse b = .ok tb)
    (nul : 0 ∉ a) (cr : 13 ∉ a) (last : a.getLast? ≠ some 92) :
    parse (a ++ 10 :: b) = .ok (if closes a then ta else ta.followedBy tb) ∧
      (closes a = true → [0xC2, 0x80] <:+: a) ∧
      (ta = .absent → ta.followedBy tb = tb) ∧ (tb = .absent → ta.followedBy tb = ta) := by
  rw [parse_eq_ok_iff] at ha hb ⊢
  have hfits := read?_fits hb
  obtain ⟨xs, sa, hxs, hra, hta⟩ := read?_eq_some_iff.mp ha
  obtain ⟨ys, sb, hys, hrb, htb⟩ := read?_eq_some_iff.mp hb
  have hlex := lexemes_newline (b := b) hxs nul cr last
  refine ⟨read?_eq_some_iff.mpr ?_, ?_, ?_, ?_⟩
  · split
    · next hclosed =>
      rw [if_pos hclosed] at hlex
      exact ⟨xs, sa, hlex, hra, hta⟩
    · next hclosed =>
      rw [if_neg hclosed, hys] at hlex
      obtain ⟨sp, hlex⟩ := hlex
      have start : State.Behind ta {} { level := { done := ta } } := .bottom {}
      obtain ⟨sb', hrb', hbehind⟩ := start.run State.sound_empty hrb
      refine ⟨_, sb', hlex, ?_, hbehind.tree? (State.sound_empty.run hrb) htb⟩
      rw [State.run_append, hra]
      change (sa.step ⟨sp, .newline⟩).bind (·.run ys) = some sb'
      rw [State.step_newline_of_tree? sp hta]
      exact hrb'
  · exact closer_of_closes
  · rintro rfl
    by_cases htb : tb = .absent
    · rw [htb, Tree.followedBy_absent]
    · exact Tree.absent_followedBy (hfits htb)
  · rintro rfl
    exact Tree.followedBy_absent ta

example : read? "echo hi\u0080\necho b" = some (.plain ["echo", "hi\u0080"]) := by decide +kernel

theorem parse_newline_group :
    parse "( a ) # b\nc\n\nd | e" = .ok (.sequence (.sequence (.subshell (.plain ["a"]))
      (.plain ["c"])) (.pipe (.plain ["d"]) (.plain ["e"]))) := by
  have ha : parse "( a ) # b" = .ok (.subshell (.plain ["a"])) :=
    parse_eq_ok_iff.mpr (by decide +kernel)
  have hb : parse "c\n\nd | e" =
      .ok (.sequence (.plain ["c"]) (.pipe (.plain ["d"]) (.plain ["e"]))) :=
    parse_eq_ok_iff.mpr (by decide +kernel)
  have hclosed : closes "( a ) # b" = false := by decide
  have hline : ("( a ) # b\nc\n\nd | e" : Bytes) = ("( a ) # b" : Bytes) ++ 10 :: "c\n\nd | e" := by
    decide
  have h := (parse_newline ha hb (by decide) (by decide) (by decide)).1
  rw [hclosed, if_neg (by decide)] at h
  rw [hline, h]
  rfl

end Line

end CommandShell
