import CommandShell.Proofs.QuotingRules
import CommandShell.Proofs.Utf8

/-! No accepted line needs an expansion: what would start one is quoted, escaped or in a comment, and
only U+0080 ends what is read of a line. -/
namespace CommandShell.Line

namespace Quoting

/-- An end of the walk is only reached by the mark that leads there. -/
theorem run_reaches {q last : Quoting} {cause : Mark} {ms : List Mark}
    (step : ∀ {q m}, Quoting.step q m = last → q = last ∨ m = cause) (hq : q ≠ last)
    (h : q.run ms = last) : cause ∈ ms := by
  induction ms generalizing q with
  | nil => exact absurd h hq
  | cons m ms ih =>
    by_cases hm : q.step m = last
    · rcases step hm with he | rfl
      · exact absurd he hq
      · exact List.mem_cons_self
    · exact List.mem_cons_of_mem _ (ih hm h)

theorem bareStep_goes_on (w sp : Bool) (b : UInt8) :
    bareStep w sp b ≠ .closed ∧ bareStep w sp b ≠ .broken := by
  unfold bareStep
  grind

theorem step_eq_closed {q : Quoting} {m : Mark} (h : q.step m = .closed) :
    q = .closed ∨ m = .closer := by
  cases q <;> cases m <;> grind [Quoting.step, bareStep_goes_on]

theorem step_eq_broken {q : Quoting} {m : Mark} (h : q.step m = .broken) :
    q = .broken ∨ m = .bad := by
  cases q <;> cases m <;> grind [Quoting.step, bareStep_goes_on]

@[simp] theorem run_closed (ms : List Mark) : closed.run ms = .closed := by
  induction ms with
  | nil => rfl
  | cons m ms ih => exact ih

end Quoting

/-- What stands behind the end of what is read does not undo it. -/
theorem Quoting.run_marks_append {q : Quoting} {ab : Bool} {s : Bytes} (t : Bytes)
    (h : q.run (marks ab s) = .closed) : q.run (marks ab (s ++ t)) = .closed := by
  fun_induction marks ab s generalizing q with
  | case1 =>
    obtain rfl : q = .closed := h
    exact Quoting.run_closed _
  | case2 ab s ih | case3 ab s ih => simpa [marks] using ih h
  | case4 s ih | case6 s ih | case8 ab s ih | case9 ab s ih => exact ih h
  | case5 ab s hab ih | case7 ab s hab ih =>
    simp only [List.cons_append, marks, hab]
    exact ih h
  | case10 ab d s h0 h13 h10 h1310 h80 h81 ih =>
    by_cases hq : q = .closed
    · rw [hq, Quoting.run_closed]
    · -- the closing mark is still to come, so the bytes that could join with `d` are all in `s`
      have hm : .closer ∈ marks (d == 92) s := by
        simpa using Quoting.run_reaches Quoting.step_eq_closed hq h
      have hlength := (closer_mem_marks hm).length_le
      rcases s with _ | ⟨e, _ | ⟨f, s⟩⟩
      · simp at hlength
      · simp at hlength
      · have hbyte : marks ab (d :: e :: f :: s ++ t) =
            .byte d :: marks (d == 92) (e :: f :: s ++ t) := by
          refine marks_byte h0 (fun hd he => h13 (f :: s) hd ?_)
            (fun hd => ⟨fun he => h10 (f :: s) hd ?_, fun r he => h1310 s hd ?_⟩)
            (fun hd => ⟨fun he => h80 (f :: s) hd ?_, fun he => h81 (f :: s) hd ?_⟩) <;>
            simp_all
        rw [hbyte]
        exact ih h

/-- How the place right behind a text is quoted. -/
def Quoting.behind (before : Bytes) : Quoting := run (.bare false false) (marks false before)

theorem Quoting.behind_ne_broken (before : Bytes) : behind before ≠ .broken := fun h =>
  bad_not_mem_marks false before (run_reaches step_eq_broken (by simp) h)

/-- Whether a text meets the end of what is read: U+0080 outside quotes and not escaped. -/
def closes (line : Bytes) : Bool := Quoting.behind line = .closed

theorem closes_append {a : Bytes} (b : Bytes) (h : closes a = true) : closes (a ++ b) = true :=
  decide_eq_true (Quoting.run_marks_append b (of_decide_eq_true h))

theorem closer_of_closes {line : Bytes} (h : closes line = true) : [0xC2, 0x80] <:+: line :=
  closer_mem_marks (Quoting.run_reaches Quoting.step_eq_closed (by simp) (of_decide_eq_true h))

theorem closes_iff {line : Bytes} (valid : Utf8.isValid line = true) :
    closes line = true ↔ (survey (.bare false false) (lineMarks line)).2 = .closed := by
  have houtcome (q : Quoting) : q.outcome = .closed ↔ q = .closed := by
    cases q <;> simp [Quoting.outcome]
  rw [survey_snd, houtcome, lineMarks, if_pos valid, closes, decide_eq_true_iff]
  rfl

/-- Text that is no UTF-8 is accepted only behind the end of what is read. -/
theorem closes_of_bad {line : Bytes} {xs : List Spaced} (h : lexemes line = some xs)
    (bad : Utf8.isValid line = false) : closes line = true := by
  have hstep (q : Quoting) (hq : (q.step .bad).outcome ≠ .broken) : q = .closed := by
    cases q <;> simp_all [Quoting.step, Quoting.outcome]
  have hrun : Quoting.run (.bare false false) (lineMarks line) =
      (Quoting.behind (Utf8.validPart line)).step .bad := by
    simp [lineMarks, bad, Quoting.behind, Quoting.run, List.foldl_append]
  rw [lexemes_eq_scan] at h
  have hend := (survey_scan h).2
  rw [survey_snd, hrun] at hend
  obtain ⟨rest, he⟩ := Utf8.validPart_prefix line
  rw [← he]
  exact closes_append rest (decide_eq_true (hstep _ hend))

/-- A backquote, or a dollar sign with something to expand right behind it, as they stand in a
line. -/
def startsAt (b : UInt8) (after : Bytes) : Bool :=
  b = 96 || (b = 36 && after.head?.any startsExpansion)

theorem startsExpansion_ascii {c : UInt8} (h : startsExpansion c = true) : c < 0x80 := by
  have hsigns : ("_\x7b(@*#?$!-" : Bytes).all (· < 0x80) = true := by decide
  simp only [startsExpansion, Bool.or_eq_true, List.contains_iff_mem] at h
  rcases h with (hletter | hdigit) | hsign
  · simp only [Bytes.isLetter, Bytes.isLower, Bytes.isUpper, Bool.or_eq_true, Bool.and_eq_true,
      decide_eq_true_eq, UInt8.le_iff_toNat_le, UInt8.lt_iff_toNat_lt, UInt8.reduceToNat] at *
    omega
  · simp only [Bytes.isDigit, Bool.and_eq_true, decide_eq_true_eq, UInt8.le_iff_toNat_le,
      UInt8.lt_iff_toNat_lt, UInt8.reduceToNat] at *
    omega
  · exact of_decide_eq_true (List.all_eq_true.mp hsigns c hsign)

theorem beginsExpansion_of_startsAt {b : UInt8} {after : Bytes} (h : startsAt b after = true) :
    beginsExpansion (.byte b) (lineMarks after) = true := by
  simp only [startsAt, beginsExpansion, Bool.or_eq_true, Bool.and_eq_true, decide_eq_true_eq,
    Mark.byte.injEq] at h ⊢
  refine h.imp_right (And.imp_right fun hafter => ?_)
  cases after with
  | nil => cases hafter
  | cons c after =>
    have hc : startsExpansion c = true := hafter
    have hplain : c ∉ [0, 13, 92, 0xC2, 0x80, 0x81] := by
      have hnone : [0, 13, 92, 0xC2, 0x80, 0x81].all (!startsExpansion ·) = true := by decide
      intro hm
      simpa [hc] using List.all_eq_true.mp hnone c hm
    have hcut := lineMarks_append (a := []) after Utf8.isValid_nil hplain
      (startsExpansion_ascii hc) (by simp)
    rw [List.nil_append] at hcut
    rw [hcut]
    exact hc

/-- The start of an expansion in a line that falls into lexemes is hidden from the walk. -/
theorem behind_isOpen_eq_false {before after : Bytes} {b : UInt8} {xs : List Spaced}
    (h : lexemes (before ++ b :: after) = some xs) (starts : startsAt b after = true) :
    (Quoting.behind before).isOpen = false ∧
      (regular before = true → (Place.behind before).isOpen = false) := by
  have hb : b = 96 ∨ b = 36 := by
    simp only [startsAt, Bool.or_eq_true, Bool.and_eq_true, decide_eq_true_eq] at starts
    exact starts.imp_right And.left
  have ascii : b < 0x80 := by rcases hb with rfl | rfl <;> decide
  cases valid : Utf8.isValid before with
  | true =>
    have hcut : lineMarks (before ++ b :: after) =
        marks false before ++ .byte b :: lineMarks after := by
      refine lineMarks_append after valid ?_ ascii ?_ <;> rcases hb with rfl | rfl <;> simp
    rw [lexemes_eq_scan, hcut] at h
    have hhidden : (Quoting.behind before).isOpen = false := by
      cases hopen : (Quoting.behind before).isOpen with
      | false => rfl
      | true =>
        have hexposed := survey_fst_of_split hopen (beginsExpansion_of_startsAt starts)
        rw [(survey_scan h).1] at hexposed
        cases hexposed
    refine ⟨hhidden, fun hr => ?_⟩
    have start : Follows (.bare false false) (.bare false) false
        (marks false before ++ .byte b :: lineMarks after) := .inl (.bare false false)
    obtain ⟨dollar, hfollows⟩ := start.run hr (survey_scan h).1
    exact hfollows.isOpen_eq_false hhidden
  | false =>
    rw [lexemes_eq_scan, lineMarks_of_bad after valid ascii] at h
    have hend : Quoting.behind before = .closed := of_decide_eq_true (closes_of_bad h valid)
    refine ⟨by rw [hend]; rfl, fun hr => ?_⟩
    have hcloser := Quoting.run_reaches Quoting.step_eq_closed (by simp) hend
    exact absurd hcloser (closer_not_mem_of_regularFrom hr)

/-- In a line that is accepted every start of an expansion is in single quotes, in a comment or
escaped, by the rules of quoting as long as the lexer keeps to them, and always by the walk of the
lexer. That walk ends at U+0080, and what stands behind it is not looked at. -/
theorem parse_ok_no_expansion {line before after : Bytes} {b : UInt8} {t : Tree}
    (h : parse line = .ok t) (split : line = before ++ b :: after)
    (starts : startsAt b after = true) :
    (regular before = true → Place.behind before = .single ∨ Place.behind before = .comment ∨
      ∃ d, Place.behind before = .escaped d) ∧
    (Quoting.behind before = .single ∨ (∃ w, Quoting.behind before = .comment w) ∨
      (∃ d, Quoting.behind before = .escaped d) ∨
      Quoting.behind before = .closed ∧ [0xC2, 0x80] <:+: before) := by
  obtain ⟨xs, st, hx, -, -⟩ := read?_eq_some_iff.mp (parse_eq_ok_iff.mp h)
  rw [split] at hx
  obtain ⟨hwalk, hrules⟩ := behind_isOpen_eq_false hx starts
  constructor
  · intro hr
    have hp := hrules hr
    cases he : Place.behind before with
    | single => exact .inl rfl
    | comment => exact .inr (.inl rfl)
    | escaped d => exact .inr (.inr ⟨d, rfl⟩)
    | bare | double =>
      rw [he] at hp
      cases hp
  · cases hq : Quoting.behind before with
    | single => exact .inl rfl
    | comment w => exact .inr (.inl ⟨w, rfl⟩)
    | escaped d => exact .inr (.inr (.inl ⟨d, rfl⟩))
    | closed => exact .inr (.inr (.inr ⟨rfl, closer_of_closes (decide_eq_true hq)⟩))
    | broken => exact absurd hq (Quoting.behind_ne_broken before)
    | bare | double =>
      rw [hq] at hwalk
      cases hwalk

example : read? "echo \u0080$HOME" = some (.plain ["echo"]) := by decide +kernel

example : read? "a #x\\\n#'\n$HOME #'" = some (.plain ["a", "#\n$HOME #"]) := by decide +kernel

theorem parse_ok_no_expansion_quoted :
    parse "echo '$HOME'" = .ok (.plain ["echo", "$HOME"]) ∧
      (Place.behind "echo '").isOpen = false := by
  have h : parse "echo '$HOME'" = .ok (.plain ["echo", "$HOME"]) :=
    parse_eq_ok_iff.mpr (by decide +kernel)
  have split : ("echo '$HOME'" : Bytes) = ("echo '" : Bytes) ++ 36 :: "HOME'" := by decide
  have hrules := (parse_ok_no_expansion h split (by decide)).1 (by decide)
  refine ⟨h, ?_⟩
  rcases hrules with hp | hp | ⟨d, hp⟩ <;> rw [hp] <;> rfl

end CommandShell.Line
