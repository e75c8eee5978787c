import CommandShell.Proofs.GatheredWords
import CommandShell.Proofs.SplitWords

/-! A line character by character: its marks, and what each character adds to the words of the
line, in the terms of the machine that splits a definition into words. -/
namespace CommandShell

namespace Line

/-- A character of a line, or an escaped line break. -/
inductive Sign where
  | char (c : Char)
  | joint
  deriving DecidableEq

def Sign.marks : Sign → List Mark
  | .char c => (Bytes.ofChar c).map .byte
  | .joint => [.joint]

/-- The marks of a line without NUL, with whole characters in place of bytes. -/
def signs (afterBackslash : Bool) : List Char → List Sign
  | [] => []
  | '\r' :: '\n' :: cs => signs afterBackslash ('\n' :: cs)
  | '\\' :: '\n' :: cs =>
    if afterBackslash then .char '\\' :: signs true ('\n' :: cs) else .joint :: signs false cs
  | '\\' :: '\r' :: '\n' :: cs =>
    if afterBackslash then .char '\\' :: signs true ('\r' :: '\n' :: cs)
    else .joint :: signs false cs
  | c :: cs => .char c :: signs (c == '\\') cs

/-- Characters that the lexer has no rules of its own for. -/
def Ordinary (c : Char) : Prop := c ≠ '\x00' ∧ c ≠ '\u0080' ∧ c ≠ '\u0081'

theorem marks_wide {c : Char} (h : 128 ≤ c.toNat) (hc : Ordinary c) (ab : Bool) (s : Bytes) :
    marks ab (Bytes.ofChar c ++ s) = (Bytes.ofChar c).map .byte ++ marks false s := by
  have htail (bs : Bytes) (hbs : ∀ b ∈ bs, 0x80 ≤ b ∧ b < 0xC2) :
      marks false (bs ++ s) = bs.map .byte ++ marks false s := by
    induction bs with
    | nil => rfl
    | cons b bs ih =>
      obtain ⟨hb, hrest⟩ := List.forall_mem_cons.mp hbs
      have hb92 : (b == 92) = false := by grind
      rw [List.cons_append, marks_byte (by grind) (by grind) (by grind) (by grind), hb92, ih hrest]
      rfl
  obtain ⟨a, tail, he, ha, hbs, hsecond⟩ := Utf8.ofChar_wide h
  have ha92 : (a == 92) = false := by grind
  rw [he, List.cons_append, marks_byte (by grind) (by grind) (by grind), ha92, htail tail hbs]
  · rfl
  · intro hlead
    obtain ⟨hlt, hhead⟩ := hsecond hlead
    have hne (k : Char) (hk : k.toNat < 256) (hck : c ≠ k) :
        (tail ++ s).head? ≠ some (UInt8.ofNat k.toNat) := by
      rw [List.head?_append, hhead, Option.some_or]
      intro he
      simp only [Option.some.injEq, ← UInt8.toNat_inj, UInt8.toNat_ofNat'] at he
      exact hck (Char.toNat_inj.mp (by omega))
    exact ⟨hne '\u0080' (by decide) hc.2.1, hne '\u0081' (by decide) hc.2.2⟩

/-- A character that joins with nothing behind it. -/
theorem marks_char {c : Char} {cs : List Char} (hc : Ordinary c) (ab : Bool)
    (cr : c = '\r' → ∀ rest, cs ≠ '\n' :: rest)
    (back : c = '\\' → ∀ rest, cs ≠ '\n' :: rest ∧ cs ≠ '\r' :: '\n' :: rest) :
    marks ab (Utf8.encode (c :: cs)) =
      (Bytes.ofChar c).map .byte ++ marks (c == '\\') (Utf8.encode cs) := by
  have newline {cs : List Char} (h : ∀ rest, cs ≠ '\n' :: rest) :
      (Utf8.encode cs).head? ≠ some 10 := by
    intro he
    obtain ⟨t, ht⟩ := List.head?_eq_some_iff.mp he
    obtain ⟨rest, hrest, -⟩ := Utf8.encode_eq_cons ht (by decide)
    exact h rest hrest
  by_cases hwide : 128 ≤ c.toNat
  · have hback : (c == '\\') = false := beq_false_of_ne (by rintro rfl; exact absurd hwide (by decide))
    rw [Utf8.encode_cons, marks_wide hwide hc, hback]
  · have hlt : c.toNat < 128 := Nat.lt_of_not_le hwide
    have code (k : Char) (hk : k.toNat < 128) := Utf8.ofNat_toNat_eq_iff hlt hk
    have hback : (UInt8.ofNat c.toNat == 92) = (c == '\\') := by
      rw [Bool.eq_iff_iff, beq_iff_eq, beq_iff_eq]
      exact code '\\' (by decide)
    rw [Utf8.encode_cons, Utf8.ofChar_ascii hlt, List.singleton_append, marks_byte, hback]
    · rfl
    · exact fun he => hc.1 ((code '\x00' (by decide)).mp he)
    · exact fun he => newline (cr ((code '\r' (by decide)).mp he))
    · intro he
      have hboth := back ((code '\\' (by decide)).mp he)
      refine ⟨newline fun rest => (hboth rest).1, fun t ht => ?_⟩
      obtain ⟨rest, hrest, ht⟩ := Utf8.encode_eq_cons ht (by decide)
      obtain ⟨rest', hrest', -⟩ := Utf8.encode_eq_cons ht.symm (by decide)
      exact (hboth rest').2 (by rw [hrest, hrest']; rfl)
    · intro he
      have hnat := congrArg UInt8.toNat he
      simp only [UInt8.toNat_ofNat', UInt8.reduceToNat] at hnat
      omega

theorem marks_encode (cs : List Char) (hcs : ∀ c ∈ cs, Ordinary c) (ab : Bool) :
    marks ab (Utf8.encode cs) = (signs ab cs).flatMap Sign.marks := by
  have drop {cs : List Char} {c : Char} (h : ∀ d ∈ c :: cs, Ordinary d) : ∀ d ∈ cs, Ordinary d :=
    (List.forall_mem_cons.mp h).2
  fun_induction signs ab cs with
  | case1 => rfl
  | case2 ab cs ih =>
    rw [← ih (drop hcs)]
    change marks ab (13 :: 10 :: Utf8.encode cs) = _
    rw [marks]
    rfl
  | case3 cs ih =>
    rw [List.flatMap_cons, ← ih (drop hcs)]
    change marks true (92 :: 10 :: Utf8.encode cs) = _
    rw [marks, if_pos rfl]
    rfl
  | case4 ab cs hab ih =>
    rw [List.flatMap_cons, ← ih (drop (drop hcs))]
    change marks ab (92 :: 10 :: Utf8.encode cs) = _
    rw [marks, if_neg hab]
    rfl
  | case5 cs ih =>
    rw [List.flatMap_cons, ← ih (drop hcs)]
    change marks true (92 :: 13 :: 10 :: Utf8.encode cs) = _
    rw [marks, if_pos rfl]
    rfl
  | case6 ab cs hab ih =>
    rw [List.flatMap_cons, ← ih (drop (drop (drop hcs)))]
    change marks ab (92 :: 13 :: 10 :: Utf8.encode cs) = _
    rw [marks, if_neg hab]
    rfl
  | case7 ab c cs cr nl crnl ih =>
    obtain ⟨hc, hcs⟩ := List.forall_mem_cons.mp hcs
    rw [List.flatMap_cons, ← ih hcs]
    exact marks_char hc ab (by grind) (by grind)

end Line

namespace Words

/-- The blanks of a line that do not end it. -/
def blanks : List Char := [' ', '\t', '\r']

/-- What it adds to the words of a line. -/
def State.spoken : State → Char → List Char
  | .between, c | .bare, c => if c ∈ blanks ∨ c = '\\' ∨ isQuote c then [] else [c]
  | .quote mark, c => if c = mark ∨ (c = '\\' ∧ mark = '"') then [] else [c]
  | .escape within, c =>
    if c = '\n' then []
    else if within = none ∨ ['$', '`', '"', '\\'].contains c then [c] else ['\\', c]

end Words

namespace Line

/-- The same place as the splitter has it. -/
def Quoting.reader : Quoting → Words.State
  | single => .quote '\''
  | double => .quote '"'
  | escaped false => .escape none
  | escaped true => .escape (some '"')
  | _ => .bare

/-- One character of a walk. -/
structure Heard (g : Gathering) (c : Char) (next : Gathering) : Prop where
  reader : next.quoting.reader = g.quoting.reader.next c
  newline : g.quoting.reader = .bare → c ≠ '\n'
  blank : g.quoting.reader = .bare → c ∈ Words.blanks →
    next.word = none ∧ next.words = g.words ++ g.word.toList
  text : ¬ (g.quoting.reader = .bare ∧ c ∈ Words.blanks) →
    next.word = some (g.word.getD [] ++ Utf8.encode (g.quoting.reader.spoken c)) ∧
      next.words = g.words

theorem escapable_eq (b : UInt8) : escapable b = [36, 96, 34, 92].contains b := by
  have hlist : ("$`\"\\" : Bytes) = [36, 96, 34, 92] := by decide
  rw [escapable, hlist]

/-- A byte that is a character, told from the bytes that quote, escape or separate. -/
structure IsByte (c : Char) (b : UInt8) : Prop where
  quote : b = 39 ↔ c = '\''
  doubleQuote : b = 34 ↔ c = '"'
  backslash : b = 92 ↔ c = '\\'
  newline : b = 10 ↔ c = '\n'
  space : b = 32 ↔ c = ' '
  tab : b = 9 ↔ c = '\t'
  cr : b = 13 ↔ c = '\r'
  dollar : b = 36 ↔ c = '$'
  backquote : b = 96 ↔ c = '`'
  encode : Utf8.encode [c] = [b]

theorem isByte_of_ascii {c : Char} (hc : c.toNat < 128) : IsByte c (UInt8.ofNat c.toNat) := by
  have code (k : Char) (hk : k.toNat < 128) := Utf8.ofNat_toNat_eq_iff hc hk
  refine ⟨code '\'' ?_, code '"' ?_, code '\\' ?_, code '\n' ?_, code ' ' ?_, code '\t' ?_,
    code '\r' ?_, code '$' ?_, code '`' ?_, ?_⟩
  case refine_10 =>
    rw [Utf8.encode_cons, Utf8.ofChar_ascii hc]
    rfl
  all_goals decide

namespace IsByte
variable {c : Char} {b : UInt8} (h : IsByte c b)
include h

theorem isBlank_iff : isBlank b = true ↔ c ∈ Words.blanks := by
  simp [isBlank, Words.blanks, h.space, h.tab, h.cr, or_assoc]

theorem escapable_iff : escapable b = true ↔ ['$', '`', '"', '\\'].contains c = true := by
  simp [escapable_eq, h.dollar, h.backquote, h.doubleQuote, h.backslash]

theorem reader_step {q : Quoting} (hq : q.isRegular = true)
    (hends : q.endsCommand (.byte b) = false) :
    (q.step (.byte b)).reader = q.reader.next c := by
  cases q with
  | comment | closed | broken => cases hq
  | escaped d => cases d <;> rfl
  | single =>
    by_cases hquote : c = '\'' <;>
      simp [Quoting.step, Quoting.reader, Words.State.next, h.quote, hquote]
  | double =>
    by_cases hquote : c = '"'
    · simp [Quoting.step, Quoting.reader, Words.State.next, h.doubleQuote, hquote]
    · by_cases hback : c = '\\' <;>
        simp [Quoting.step, Quoting.reader, Words.State.next, h.doubleQuote, h.backslash, hquote,
          hback]
  | bare w sp =>
    have hcomment : (decide (b = 35) && (sp || !w)) = false := by
      simp only [Quoting.endsCommand] at hends
      grind
    simp only [Quoting.step, Quoting.bareStep, hcomment, h.quote, h.doubleQuote, h.backslash]
    by_cases hblank : isBlank b = true
    · have hc := h.isBlank_iff.mp hblank
      simp only [Words.blanks, List.mem_cons, List.not_mem_nil, or_false] at hc
      rw [if_pos hblank]
      rcases hc with rfl | rfl | rfl <;> rfl
    by_cases hsingle : c = '\''
    · simp [hblank, hsingle, Quoting.reader, Words.State.next, Words.isQuote]
    by_cases hdouble : c = '"'
    · simp [hblank, hdouble, Quoting.reader, Words.State.next, Words.isQuote]
    by_cases hback : c = '\\'
    · simp [hblank, hback, Quoting.reader, Words.State.next]
    -- What is left is in no quotes, whether it goes on with the word or not.
    have hplain (p : Prop) [Decidable p] :
        (if p then Quoting.bare false false else .bare true false).reader = .bare := by
      split <;> rfl
    change _ = Words.State.next .bare c
    simp [hblank, hsingle, hdouble, hback, hplain, Words.State.next, Words.isQuote]

theorem said_eq {q : Quoting} (hq : q.isRegular = true)
    (hblank : ¬ (q.reader = .bare ∧ c ∈ Words.blanks)) :
    q.said (.byte b) = Utf8.encode (q.reader.spoken c) := by
  cases q with
  | comment | closed | broken => cases hq
  | escaped d =>
    have hpair : Utf8.encode ['\\', c] = [92, b] := by rw [Utf8.encode_cons, h.encode]; rfl
    by_cases hline : c = '\n'
    · cases d <;> simp [Quoting.said, Quoting.reader, Words.State.spoken, h.newline, hline]
    cases d with
    | false =>
      simp [Quoting.said, Quoting.reader, Words.State.spoken, h.newline, hline, h.encode]
    | true =>
      by_cases hesc : escapable b = true
      · have hc := h.escapable_iff.mp hesc
        simp only [Quoting.said, Quoting.reader, Words.State.spoken, h.newline, hline, hesc, hc]
        simp [h.encode]
      · have hc := mt h.escapable_iff.mpr hesc
        simp only [Quoting.said, Quoting.reader, Words.State.spoken, h.newline, hline, hesc, hc]
        simp [hpair]
  | single =>
    by_cases hquote : c = '\'' <;>
      simp [Quoting.said, Quoting.reader, Words.State.spoken, h.quote, hquote, h.encode]
  | double =>
    by_cases hquote : c = '"' <;> by_cases hback : c = '\\' <;>
      simp [Quoting.said, Quoting.reader, Words.State.spoken, h.doubleQuote, h.backslash, hquote,
        hback, h.encode]
  | bare w sp =>
    have hblank : c ∉ Words.blanks := fun hc => hblank ⟨rfl, hc⟩
    by_cases hquote : c = '\'' <;> by_cases hdouble : c = '"' <;> by_cases hback : c = '\\' <;>
      simp [Quoting.said, Quoting.reader, Words.State.spoken, h.quote, h.doubleQuote, h.backslash,
        hquote, hdouble, hback, hblank, h.encode, Words.isQuote]

theorem heard {g next : Gathering} (hstep : g.step? (.byte b) = some next) : Heard g c next := by
  obtain ⟨q, word, words⟩ := g
  have add (hq : q.isRegular = true) (hends : q.endsCommand (.byte b) = false)
      (hblank : ¬ (q.reader = .bare ∧ c ∈ Words.blanks)) :
      (Gathering.add ⟨q, word, words⟩ (.byte b)).quoting.reader = q.reader.next c ∧
      (Gathering.add ⟨q, word, words⟩ (.byte b)).word =
        some (word.getD [] ++ Utf8.encode (q.reader.spoken c)) :=
    ⟨h.reader_step hq hends, congrArg (fun s => some (word.getD [] ++ s)) (h.said_eq hq hblank)⟩
  cases q with
  | comment | closed | broken => cases hstep
  | single | double =>
    cases hstep
    obtain ⟨hreader, hword⟩ := add rfl rfl (by simp [Quoting.reader])
    exact ⟨hreader, by simp [Quoting.reader], by simp [Quoting.reader], fun _ => ⟨hword, rfl⟩⟩
  | escaped d =>
    cases hstep
    obtain ⟨hreader, hword⟩ := add rfl rfl (by cases d <;> simp [Quoting.reader])
    exact ⟨hreader, by cases d <;> simp [Quoting.reader], by cases d <;> simp [Quoting.reader],
      fun _ => ⟨hword, rfl⟩⟩
  | bare w sp =>
    rw [Gathering.step?_bare] at hstep
    split at hstep
    · cases hstep
    · next hends =>
      have hends : Quoting.endsCommand (.bare w sp) (.byte b) = false := by simpa using hends
      have hline : c ≠ '\n' := by
        rintro rfl
        rw [h.newline.mpr rfl] at hends
        cases hends
      split at hstep
      · next hblank =>
        cases hstep
        exact ⟨h.reader_step rfl hends, fun _ => hline, fun _ _ => ⟨rfl, rfl⟩,
          fun hn => absurd ⟨rfl, h.isBlank_iff.mp hblank⟩ hn⟩
      · next hblank =>
        cases hstep
        obtain ⟨hreader, hword⟩ := add rfl hends fun hc => hblank (h.isBlank_iff.mpr hc.2)
        exact ⟨hreader, fun _ => hline, fun _ hc => absurd (h.isBlank_iff.mpr hc) hblank,
          fun _ => ⟨hword, rfl⟩⟩

end IsByte

/-- Bytes beyond ASCII quote, escape and separate nothing. -/
theorem run_wide {q : Quoting} (hq : q = .bare true false ∨ q = .single ∨ q = .double)
    (bs : Bytes) (hbs : ∀ b ∈ bs, 0x80 ≤ b) (t : Bytes) (words : List Bytes) (ms : List Mark) :
    Gathering.run ⟨q, some t, words⟩ (bs.map .byte ++ ms) =
      Gathering.run ⟨q, some (t ++ bs), words⟩ ms := by
  induction bs generalizing t with
  | nil => simp
  | cons b bs ih =>
    obtain ⟨hb, hrest⟩ := List.forall_mem_cons.mp hbs
    have hstep : Gathering.run ⟨q, some t, words⟩ (.byte b :: (bs.map .byte ++ ms)) =
        Gathering.run ⟨q, some (t ++ [b]), words⟩ (bs.map .byte ++ ms) := by
      rcases hq with rfl | rfl | rfl
      · refine Gathering.run_text ?_ (by grind) (by grind) (by grind)
        simp only [endsWord, isBlank, isOperatorStart]
        grind
      · have h39 : b ≠ 39 := by grind
        simp [Gathering.run_cons, Gathering.step?, Gathering.add, Quoting.step, Quoting.said, h39]
      · have h34 : b ≠ 34 := by grind
        have h92 : b ≠ 92 := by grind
        simp [Gathering.run_cons, Gathering.step?, Gathering.add, Quoting.step, Quoting.said, h34,
          h92]
    rw [List.map_cons, List.cons_append, hstep, ih hrest, List.append_assoc, List.singleton_append]

theorem heard_wide {g last : Gathering} {c : Char} {ms : List Mark} (hc : 128 ≤ c.toNat)
    (h : g.run ((Bytes.ofChar c).map .byte ++ ms) = some last) :
    ∃ next, Heard g c next ∧ next.run ms = some last := by
  have hne (k : Char) (hk : k.toNat < 128) : c ≠ k := by
    rintro rfl
    omega
  have hquote : c ≠ '\'' := hne _ (by decide)
  have hdouble : c ≠ '"' := hne _ (by decide)
  have hback : c ≠ '\\' := hne _ (by decide)
  have hline : c ≠ '\n' := hne _ (by decide)
  have hblank : c ∉ Words.blanks := by
    simp only [Words.blanks, List.mem_cons, List.not_mem_nil, or_false, not_or]
    exact ⟨hne _ (by decide), hne _ (by decide), hne _ (by decide)⟩
  obtain ⟨a, tail, he, ha, htail, -⟩ := Utf8.ofChar_wide hc
  have hself : Utf8.encode [c] = a :: tail := by
    rw [Utf8.encode_cons, he, Utf8.encode_nil, List.append_nil]
  have hpair : Utf8.encode ['\\', c] = 92 :: a :: tail := by rw [Utf8.encode_cons, hself]; rfl
  rw [he, List.map_cons, List.cons_append] at h
  obtain ⟨q, word, words⟩ := g
  -- The first byte takes the place of the character, and the others go on from there.
  have done (hstep : Gathering.step? ⟨q, word, words⟩ (.byte a) =
        some (Gathering.add ⟨q, word, words⟩ (.byte a)))
      (hplace : q.step (.byte a) = .bare true false ∨ q.step (.byte a) = .single ∨
        q.step (.byte a) = .double)
      (hreader : (q.step (.byte a)).reader = q.reader.next c)
      (hsaid : q.said (.byte a) ++ tail = Utf8.encode (q.reader.spoken c)) :
      ∃ next, Heard ⟨q, word, words⟩ c next ∧ next.run ms = some last := by
    refine ⟨⟨q.step (.byte a), some (word.getD [] ++ Utf8.encode (q.reader.spoken c)), words⟩,
      ⟨hreader, fun _ => hline, fun _ hin => absurd hin hblank, fun _ => ⟨rfl, rfl⟩⟩, ?_⟩
    rw [Gathering.run_cons, hstep] at h
    rw [← hsaid, ← List.append_assoc, ← run_wide hplace tail (fun b hb => (htail b hb).1)]
    exact h
  cases q with
  | comment | closed | broken => cases h
  | bare w sp =>
    have hop : isOperatorStart a = false := by
      simp only [isOperatorStart]
      grind
    have hends : Quoting.endsCommand (.bare w sp) (.byte a) = false := by
      simp only [Quoting.endsCommand, hop]
      grind
    have hnot : isBlank a = false := by
      simp only [isBlank]
      grind
    have hstep : Quoting.step (.bare w sp) (.byte a) = .bare true false := by
      simp only [Quoting.step, Quoting.bareStep, hnot, hop]
      grind
    refine done ?_ (.inl hstep) ?_ ?_
    · rw [Gathering.step?_bare, if_neg (by simp [hends]), if_neg (by simp [hnot])]
    · simp [hstep, Quoting.reader, Words.State.next, Words.isQuote, hback, hquote, hdouble]
    · have hsaid : Quoting.said (.bare w sp) (.byte a) = [a] := by
        simp only [Quoting.said]
        grind
      simp [hsaid, Quoting.reader, Words.State.spoken, Words.isQuote, hblank, hback, hquote, hdouble,
        hself]
  | single =>
    have h39 : a ≠ 39 := by grind
    refine done rfl ?_ ?_ ?_ <;>
      simp [Quoting.step, Quoting.said, Quoting.reader, Words.State.next, Words.State.spoken, h39,
        hquote, hself]
  | double =>
    have h34 : a ≠ 34 := by grind
    have h92 : a ≠ 92 := by grind
    refine done rfl ?_ ?_ ?_ <;>
      simp [Quoting.step, Quoting.said, Quoting.reader, Words.State.next, Words.State.spoken, h34,
        h92, hdouble, hback, hself]
  | escaped d =>
    have h10 : a ≠ 10 := by grind
    have hesc : escapable a = false := by
      rw [escapable_eq, List.contains_eq_mem, decide_eq_false_iff_not]
      grind
    have hsign : c ≠ '$' ∧ c ≠ '`' := ⟨hne _ (by decide), hne _ (by decide)⟩
    cases d
    · refine done rfl (.inl rfl) rfl ?_
      simp [Quoting.said, Quoting.reader, Words.State.spoken, h10, hline, hself]
    · refine done rfl (.inr (.inr rfl)) rfl ?_
      simp [Quoting.said, Quoting.reader, Words.State.spoken, h10, hline, hesc, hpair, hdouble,
        hback, hsign]

/-- One character of a walk that goes on behind it. -/
theorem exists_heard {g last : Gathering} {c : Char} {ms : List Mark}
    (h : g.run ((Bytes.ofChar c).map .byte ++ ms) = some last) :
    ∃ next, Heard g c next ∧ next.run ms = some last := by
  by_cases hc : c.toNat < 128
  · rw [Utf8.ofChar_ascii hc] at h
    obtain ⟨next, hnext, hrun⟩ := Option.bind_eq_some_iff.mp h
    exact ⟨next, (isByte_of_ascii hc).heard hnext, hrun⟩
  · exact heard_wide (Nat.le_of_not_lt hc) h

theorem Quoting.proper_reader (q : Quoting) : q.reader.Proper := by
  cases q with
  | escaped d => cases d <;> simp [Quoting.reader, Words.State.Proper]
  | _ => simp [Quoting.reader, Words.State.Proper]

/-- Only a backslash escapes. -/
theorem Heard.escape {g next : Gathering} {c : Char} {d : Bool} (h : Heard g c next)
    (hd : next.quoting = .escaped d) : c = '\\' := by
  have hreader := h.reader
  rw [hd] at hreader
  cases d <;> exact g.quoting.proper_reader.eq_of_next_escape hreader.symm

/-- An escaped line break goes with single quotes, and is nothing elsewhere. -/
theorem exists_joint {g last : Gathering} {ms : List Mark}
    (h : g.run (.joint :: ms) = some last) : ∃ next : Gathering, next.run ms = some last ∧
      next.quoting.reader = g.quoting.reader ∧ (∀ d, next.quoting ≠ .escaped d) ∧
      next.words = g.words ∧
      (g.quoting.reader = .bare ∧ next.word = g.word ∨
        g.quoting.reader = .quote '\'' ∧ next.word = some (g.word.getD [] ++ [92, 10]) ∨
        g.quoting.reader = .quote '"' ∧ next.word = some (g.word.getD [])) := by
  obtain ⟨q, word, words⟩ := g
  cases q with
  | comment | closed | broken | escaped => cases h
  | bare w sp => exact ⟨_, h, rfl, by simp, rfl, .inl ⟨rfl, rfl⟩⟩
  | single =>
    exact ⟨_, h, rfl, by simp [Gathering.add, Quoting.step], rfl,
      .inr (.inl ⟨rfl, by simp [Gathering.add, Quoting.said]⟩)⟩
  | double =>
    exact ⟨_, h, rfl, by simp [Gathering.add, Quoting.step], rfl,
      .inr (.inr ⟨rfl, by simp [Gathering.add, Quoting.said]⟩)⟩

end Line
end CommandShell
