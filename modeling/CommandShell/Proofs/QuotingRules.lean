import CommandShell.Proofs.Quoting

/-! The rules of quoting on their own, and the texts in which the walk over a line keeps to them. -/
namespace CommandShell.Line

/-- A place of a line by the rules of quoting alone: outside quotes, where a number sign may
continue a word, in a comment, in quotes, or right behind a backslash. -/
inductive Place where
  | bare (inWord : Bool)
  | comment
  | single
  | double
  | escaped (inDouble : Bool)
  deriving DecidableEq, Repr

namespace Place

/-- A word goes on up to a blank, a newline or an operator, and only a number sign that begins a
word starts a comment. -/
def bareStep (inWord : Bool) (b : UInt8) : Place :=
  if isBlank b || b = 10 || isOperatorStart b then bare false
  else if b = 35 && !inWord then comment
  else if b = 39 then single
  else if b = 34 then double
  else if b = 92 then escaped false
  else bare true

/-- An escaped line break is as if it were not there, except that a comment ends with its line.
U+0080 and U+0081 are characters like any other. -/
def step : Place → Mark → Place
  | bare inWord, .byte b => bareStep inWord b
  | bare inWord, .joint => bare inWord
  | bare _, _ => bare true
  | comment, m => if m = .byte 10 || m = .joint then bare false else comment
  | single, m => if m = .byte 39 then bare true else single
  | double, m => if m = .byte 34 then bare true else if m = .byte 92 then escaped true else double
  | escaped inDouble, _ => if inDouble then double else bare true

def run (p : Place) (ms : List Mark) : Place := ms.foldl step p

/-- The place right behind a text. -/
def behind (before : Bytes) : Place := run (bare false) (marks false before)

/-- Where an expansion would take place. -/
def isOpen : Place → Bool
  | bare _ | double => true
  | _ => false

end Place

/-- Whether the lexer goes by the rules of quoting at a mark. It has rules of its own for U+0080 and
U+0081, and for an escaped line break in a comment or right behind an unquoted dollar sign. -/
def regularMark (p : Place) (dollar : Bool) : Mark → Bool
  | .byte _ => true
  | .joint => !(p = .comment || (p = .bare true && dollar))
  | _ => false

def regularFrom (p : Place) (dollar : Bool) : List Mark → Bool
  | [] => true
  | m :: ms => regularMark p dollar m && regularFrom (p.step m) (m = .byte 36) ms

/-- Whether the lexer goes by the rules of quoting all over a text. -/
def regular (text : Bytes) : Bool := regularFrom (.bare false) false (marks false text)

/-- The walk of the lexer and the rules of quoting are at the same place. -/
inductive Same : Quoting → Place → Prop
  | bare (w sp : Bool) : Same (.bare w sp) (.bare (w && !sp))
  | comment (w : Bool) : Same (.comment w) .comment
  | single : Same .single .single
  | double : Same .double .double
  | escaped (d : Bool) : Same (.escaped d) (.escaped d)

/-- Right behind a dollar sign the walk is outside a word and the rules are in one. This makes no
difference unless a number sign comes next. -/
def Follows (q : Quoting) (p : Place) (dollar : Bool) (rest : List Mark) : Prop :=
  Same q p ∨ q = .bare false false ∧ p = .bare true ∧ dollar = true ∧ expands rest = false

theorem bareStep_follows {w sp inWord : Bool} {b : UInt8} {rest : List Mark}
    (sign : b = 35 → inWord = (w && !sp)) (dollar : b = 36 → expands rest = false) :
    Follows (Quoting.bareStep w sp b) (Place.bareStep inWord b) (b = 36) rest := by
  by_cases hb : isBlank b = true
  · have hq : Quoting.bareStep w sp b = .bare w true := by simp [Quoting.bareStep, hb]
    have hp : Place.bareStep inWord b = .bare (w && !true) := by simp [Place.bareStep, hb]
    rw [hq, hp]
    exact .inl (.bare w true)
  by_cases hend : (decide (b = 10) || isOperatorStart b) = true
  · have hq : Quoting.bareStep w sp b = .bare false false := by
      simp only [Bool.or_eq_true, decide_eq_true_eq] at hend
      rcases hend with rfl | hop
      · rfl
      · exact bareStep_operator w sp hop
    have hp : Place.bareStep inWord b = .bare (false && !false) := by
      rw [Place.bareStep, Bool.or_assoc, hend, Bool.or_true, if_pos rfl]
      rfl
    rw [hq, hp]
    exact .inl (.bare false false)
  -- What is left continues a word, unless it opens something.
  simp only [Bool.or_eq_true, decide_eq_true_eq, not_or] at hend
  by_cases h36 : b = 36
  · subst h36
    exact .inr ⟨rfl, rfl, rfl, dollar rfl⟩
  by_cases h35 : b = 35
  · subst h35
    obtain rfl := sign rfl
    cases w <;> cases sp <;> first | exact .inl (.comment _) | exact .inl (.bare true false)
  refine .inl ?_
  simp only [Quoting.bareStep, Place.bareStep, hb, hend, h35, h36]
  by_cases h39 : b = 39
  · simpa [h39] using Same.single
  by_cases h34 : b = 34
  · simpa [h34] using Same.double
  by_cases h92 : b = 92
  · simpa [h92] using Same.escaped false
  simpa [h39, h34, h92] using Same.bare true false

theorem Follows.step {q : Quoting} {p : Place} {dollar : Bool} {m : Mark} {rest : List Mark}
    (h : Follows q p dollar (m :: rest)) (hr : regularMark p dollar m = true)
    (hx : q.isOpen = true → beginsExpansion m rest = false) :
    Follows (q.step m) (p.step m) (m = .byte 36) rest := by
  cases m with
  | closer | joiner | bad => cases hr
  | byte b =>
    have bare {w sp inWord : Bool} (ho : q.isOpen = true) (sign : b = 35 → inWord = (w && !sp)) :
        Follows (Quoting.bareStep w sp b) (Place.bareStep inWord b)
          (Mark.byte b = .byte 36) rest := by
      simp only [Mark.byte.injEq]
      refine bareStep_follows sign ?_
      rintro rfl
      simpa [beginsExpansion] using hx ho
    rcases h with h | ⟨rfl, rfl, -, he⟩
    · cases h with
      | bare w sp => exact bare rfl fun _ => rfl
      | comment w =>
        by_cases h10 : b = 10
        · subst h10
          exact .inl (.bare false false)
        · have hq : Quoting.step (.comment w) (.byte b) = .comment w := if_neg h10
          have hp : Place.step .comment (.byte b) = .comment := if_neg (by simp [h10])
          rw [hq, hp]
          exact .inl (.comment w)
      | single =>
        by_cases h39 : b = 39
        · subst h39
          exact .inl (.bare true false)
        · have hq : Quoting.step .single (.byte b) = .single := if_neg h39
          have hp : Place.step .single (.byte b) = .single := if_neg (by simp [h39])
          rw [hq, hp]
          exact .inl .single
      | double =>
        by_cases h34 : b = 34
        · subst h34
          exact .inl (.bare true false)
        by_cases h92 : b = 92
        · subst h92
          exact .inl (.escaped true)
        · have hq : Quoting.step .double (.byte b) = .double :=
            (if_neg h34).trans (if_neg h92)
          have hp : Place.step .double (.byte b) = .double :=
            (if_neg (by simp [h34])).trans (if_neg (by simp [h92]))
          rw [hq, hp]
          exact .inl .double
      | escaped d =>
        cases d with
        | true => exact .inl .double
        | false => exact .inl (.bare true false)
    · refine bare rfl fun h35 => ?_
      subst h35
      cases he
  | joint =>
    rcases h with h | ⟨rfl, rfl, rfl, -⟩
    · refine .inl ?_
      cases h with
      | bare w sp => exact .bare w sp
      | comment w => cases hr
      | single => exact .single
      | double => exact .double
      | escaped d =>
        cases d with
        | true => exact .double
        | false => exact .bare true false
    · cases hr

theorem Follows.run {q : Quoting} {p : Place} {dollar : Bool} {ms after : List Mark}
    (h : Follows q p dollar (ms ++ after)) (hr : regularFrom p dollar ms = true)
    (hx : (survey q (ms ++ after)).1 = false) :
    ∃ dollar, Follows (q.run ms) (p.run ms) dollar after := by
  induction ms generalizing q p dollar with
  | nil => exact ⟨dollar, h⟩
  | cons m ms ih =>
    obtain ⟨hm, hms⟩ := Bool.and_eq_true_iff.mp hr
    obtain ⟨hexposed, hrest⟩ := Bool.or_eq_false_iff.mp hx
    have hfirst (ho : q.isOpen = true) : beginsExpansion m (ms ++ after) = false := by
      simpa [ho] using hexposed
    exact ih (h.step hm hfirst) hms hrest

/-- The walk outside quotes and comments is nowhere else by the rules. -/
theorem Follows.isOpen_eq_false {q : Quoting} {p : Place} {dollar : Bool} {rest : List Mark}
    (h : Follows q p dollar rest) (hq : q.isOpen = false) : p.isOpen = false := by
  rcases h with h | ⟨rfl, -⟩
  · cases h with
    | bare | double => cases hq
    | comment | single | escaped => rfl
  · cases hq

theorem closer_not_mem_of_regularFrom {p : Place} {dollar : Bool} {ms : List Mark}
    (h : regularFrom p dollar ms = true) : .closer ∉ ms := by
  induction ms generalizing p dollar with
  | nil => simp
  | cons m ms ih =>
    obtain ⟨hm, hms⟩ := Bool.and_eq_true_iff.mp h
    simp only [List.mem_cons, not_or]
    refine ⟨?_, ih hms⟩
    rintro rfl
    cases hm

end CommandShell.Line
