import CommandShell.Proofs.JsonScalar
import CommandShell.Proofs.LineCharacters
import CommandShell.Proofs.TokenRun
import Mathlib

/-! The parts that a word can be written in: bare text, escaped characters and quoted text, in any
order. Parts outside quotes that follow each other are one lexeme, and each part in quotes is one. -/
namespace CommandShell.Line
open Gathering (unescape_cons unescape_escape)

/-- A character between double quotes: as it is, or behind a backslash. -/
inductive QuotedChar where
  | char (c : Char)
  | escaped (c : Char)

/-- A part of a word. -/
inductive Segment where
  | bare (s : List Char)
  | escaped (c : Char)
  | single (s : Bytes)
  | double (s : List QuotedChar)

/-- The characters that a backslash hides between double quotes. -/
def hidden : List Char := ['$', '`', '"', '\\']

/-- A character that can stand in a line. -/
def Stands (c : Char) : Prop := c ≠ '\x00' ∧ c ≠ '\r'

namespace QuotedChar

def text : QuotedChar → Bytes
  | char c => Bytes.ofChar c
  | escaped c => 92 :: Bytes.ofChar c

/-- A backslash disappears only before the characters that it hides. -/
def value : QuotedChar → Bytes
  | char c => Bytes.ofChar c
  | escaped c => if c ∈ hidden then Bytes.ofChar c else 92 :: Bytes.ofChar c

def Proper : QuotedChar → Prop
  | char c => Stands c ∧ c ∉ hidden
  | escaped c => Stands c ∧ c ≠ '\n'

end QuotedChar

/-! ### Marks of characters -/

def charMarks (c : Char) : List Mark :=
  if c = '\u0080' then [.closer] else if c = '\u0081' then [.joiner]
  else (Bytes.ofChar c).map .byte

theorem charMarks_of_ordinary {c : Char} (h : Ordinary c) :
    charMarks c = (Bytes.ofChar c).map .byte := by
  rw [charMarks, if_neg h.2.1, if_neg h.2.2]

theorem marks_ofChar {c : Char} (hc : Stands c) (back : c ≠ '\\') (ab : Bool) (s : Bytes) :
    marks ab (Bytes.ofChar c ++ s) = charMarks c ++ marks false s := by
  by_cases h80 : c = '\u0080'
  · subst h80
    change marks ab (0xC2 :: 0x80 :: s) = .closer :: marks false s
    rw [marks]
  by_cases h81 : c = '\u0081'
  · subst h81
    change marks ab (0xC2 :: 0x81 :: s) = .joiner :: marks false s
    rw [marks]
  have ordinary : Ordinary c := ⟨hc.1, h80, h81⟩
  rw [charMarks_of_ordinary ordinary]
  by_cases hwide : 128 ≤ c.toNat
  · exact marks_wide hwide ordinary ab s
  · have hlt : c.toNat < 128 := Nat.lt_of_not_le hwide
    have code (k : Char) (hk : k.toNat < 128) := Utf8.ofNat_toNat_eq_iff hlt hk
    have h92 : UInt8.ofNat c.toNat ≠ 92 := mt (code '\\' (by decide)).mp back
    rw [Utf8.ofChar_ascii hlt, List.singleton_append, marks_byte, beq_false_of_ne h92]
    · rfl
    · exact mt (code '\x00' (by decide)).mp hc.1
    · exact fun he => absurd ((code '\r' (by decide)).mp he) hc.2
    · exact fun he => absurd he h92
    · intro he
      have hnat := congrArg UInt8.toNat he
      simp only [UInt8.toNat_ofNat', UInt8.reduceToNat] at hnat
      omega

/-- A backslash right behind another is a byte of its own. -/
theorem marks_secondBackslash (s : Bytes) : marks true (92 :: s) = .byte 92 :: marks true s := by
  rw [marks.eq_def]
  split <;> simp_all

theorem head?_ofChar {c : Char} {k : Char} (hk : k.toNat < 128) (hc : c ≠ k) (s : Bytes) :
    (Bytes.ofChar c ++ s).head? ≠ some (UInt8.ofNat k.toNat) := by
  by_cases hwide : 128 ≤ c.toNat
  · obtain ⟨a, tail, he, ha, -⟩ := Utf8.ofChar_wide hwide
    rw [he]
    simp only [List.cons_append, List.head?_cons, ne_eq, Option.some.injEq]
    rintro rfl
    have hnat : (0x80 : UInt8).toNat ≤ (UInt8.ofNat k.toNat).toNat :=
      UInt8.le_iff_toNat_le.mp (by grind)
    simp only [UInt8.toNat_ofNat', UInt8.reduceToNat] at hnat
    omega
  · have hlt : c.toNat < 128 := Nat.lt_of_not_le hwide
    rw [Utf8.ofChar_ascii hlt, List.singleton_append, List.head?_cons]
    intro he
    have hnat := congrArg UInt8.toNat (Option.some.inj he)
    simp only [UInt8.toNat_ofNat'] at hnat
    exact hc (Char.toNat_inj.mp (by omega))

theorem marks_escaped {c : Char} (hc : Stands c) (line : c ≠ '\n') (ab : Bool) (s : Bytes) :
    marks ab (92 :: (Bytes.ofChar c ++ s)) = .byte 92 :: (charMarks c ++ marks (c == '\\') s) := by
  have hline : (Bytes.ofChar c ++ s).head? ≠ some 10 := head?_ofChar (k := '\n') (by decide) line s
  have hcr : (Bytes.ofChar c ++ s).head? ≠ some 13 := head?_ofChar (k := '\r') (by decide) hc.2 s
  have hfirst : marks ab (92 :: (Bytes.ofChar c ++ s)) =
      .byte 92 :: marks true (Bytes.ofChar c ++ s) := by
    refine marks_byte (by decide) (by simp) (fun _ => ⟨hline, ?_⟩) (by simp)
    rintro t he
    rw [he] at hcr
    exact hcr rfl
  rw [hfirst]
  by_cases back : c = '\\'
  · subst back
    exact congrArg _ (marks_secondBackslash s)
  · rw [marks_ofChar hc back, beq_false_of_ne back]

/-! ### Between double quotes -/

/-- A byte that has no meaning of its own between double quotes. -/
def IsText (b : UInt8) : Prop := b ≠ 92 ∧ b ≠ 34 ∧ b ≠ 96 ∧ b ≠ 36

theorem isText_of_wide {b : UInt8} (h : 0x80 ≤ b) : IsText b := by
  refine ⟨?_, ?_, ?_, ?_⟩ <;> rintro rfl <;> exact absurd h (by decide)

theorem isText_of_mem {c : Char} (hc : c ∉ hidden) {b : UInt8} (hb : b ∈ Bytes.ofChar c) :
    IsText b := by
  have hne {k : Char} (hk : k ∈ hidden) (h128 : k.toNat < 128) : b ≠ UInt8.ofNat k.toNat := by
    rintro rfl
    rcases Json.mem_ofChar hb with hn | hn
    · simp only [UInt8.toNat_ofNat'] at hn
      obtain rfl : c = k := Char.toNat_inj.mp (by omega)
      exact hc hk
    · simp only [UInt8.toNat_ofNat'] at hn
      omega
  exact ⟨hne (k := '\\') (by decide) (by decide), hne (k := '"') (by decide) (by decide),
    hne (k := '`') (by decide) (by decide), hne (k := '$') (by decide) (by decide)⟩

theorem scanDouble_text {b : UInt8} (hb : IsText b) (inText : Bool) (ms : List Mark) :
    scanDouble inText (.byte b :: ms) = (scanDouble true ms).map fun (s, r) => (b :: s, r) := by
  obtain ⟨h92, h34, h96, h36⟩ := hb
  have hne : (b != 36) = true := bne_iff_ne.mpr h36
  rw [scanDouble.eq_def]
  simp [h92, h34, h96, h36, hne]

theorem scanDouble_texts {bs : Bytes} (hbs : ∀ b ∈ bs, IsText b) (ms : List Mark) :
    scanDouble true (bs.map .byte ++ ms) = (scanDouble true ms).map fun (s, r) => (bs ++ s, r) := by
  induction bs with
  | nil => simp
  | cons b bs ih =>
    obtain ⟨hb, hrest⟩ := List.forall_mem_cons.mp hbs
    rw [List.map_cons, List.cons_append, scanDouble_text hb, ih hrest, Option.map_map]
    rfl

theorem unescape_texts {bs : Bytes} (hbs : ∀ b ∈ bs, b ≠ 92) (quoted : Bool) (s : Bytes) :
    unescape quoted (bs ++ s) = bs ++ unescape quoted s := by
  induction bs with
  | nil => rfl
  | cons b bs ih =>
    obtain ⟨hb, hrest⟩ := List.forall_mem_cons.mp hbs
    rw [List.cons_append, unescape_cons quoted _ hb, ih hrest, List.cons_append]

/-- The first byte of a character, and the others. -/
theorem ofChar_eq_cons (c : Char) :
    ∃ b tail, Bytes.ofChar c = b :: tail ∧ (∀ d ∈ tail, 0x80 ≤ d) ∧
      (c.toNat < 128 ∧ b = UInt8.ofNat c.toNat ∧ tail = [] ∨ 128 ≤ c.toNat ∧ 0x80 ≤ b) := by
  by_cases hwide : 128 ≤ c.toNat
  · obtain ⟨a, tail, he, ha, htail, -⟩ := Utf8.ofChar_wide hwide
    exact ⟨a, tail, he, fun d hd => (htail d hd).1, .inr ⟨hwide, by grind⟩⟩
  · have hlt : c.toNat < 128 := Nat.lt_of_not_le hwide
    exact ⟨_, [], Utf8.ofChar_ascii hlt, by simp, .inl ⟨hlt, rfl, rfl⟩⟩

theorem scanDouble_joiner (inText : Bool) (ms : List Mark) :
    scanDouble inText (charMarks '\u0081' ++ ms) =
      (scanDouble false ms).map fun (s, r) =>
        ((if inText then Bytes.ofChar '\u0081' else []) ++ s, r) := by
  cases inText <;> rfl

theorem scanDouble_escaped (c : Char) (inText : Bool) (ms : List Mark) :
    scanDouble inText (.byte 92 :: (charMarks c ++ ms)) =
      (scanDouble true ms).map fun (s, r) => (92 :: (Bytes.ofChar c ++ s), r) := by
  unfold charMarks
  split
  · next h80 =>
    subst h80
    rfl
  · split
    · next h81 =>
      subst h81
      rfl
    · obtain ⟨b, tail, he, htail, -⟩ := ofChar_eq_cons c
      rw [he, List.map_cons, List.cons_append, scanDouble,
        scanDouble_texts fun d hd => isText_of_wide (htail d hd), Option.map_map]
      rfl

theorem unescape_escaped {c : Char} (line : c ≠ '\n') (s : Bytes) :
    unescape true (92 :: (Bytes.ofChar c ++ s)) =
      (QuotedChar.escaped c).value ++ unescape true s := by
  obtain ⟨b, tail, he, htail, hb⟩ := ofChar_eq_cons c
  have hback : ∀ d ∈ tail, d ≠ 92 := fun d hd => (isText_of_wide (htail d hd)).1
  rw [he, List.cons_append, unescape_escape, unescape_texts hback, QuotedChar.value, he]
  rcases hb with ⟨hlt, rfl, rfl⟩ | ⟨hwide, hb⟩
  · have hbyte := isByte_of_ascii hlt
    have hesc := hbyte.escapable_iff
    rw [List.contains_eq_mem, decide_eq_true_iff] at hesc
    have h10 : UInt8.ofNat c.toNat ≠ 10 := mt hbyte.newline.mp line
    by_cases hc : c ∈ hidden
    · simp [Quoting.said, h10, hesc.mpr hc, hc]
    · simp [Quoting.said, h10, mt hesc.mp hc, hc]
  · have h10 : b ≠ 10 := by
      rintro rfl
      exact absurd hb (by decide)
    have hesc : escapable b = false := by
      rw [escapable_eq]
      grind
    have hc : c ∉ hidden := by
      intro hm
      simp only [hidden, List.mem_cons, List.not_mem_nil, or_false] at hm
      rcases hm with rfl | rfl | rfl | rfl <;> exact absurd hwide (by decide)
    simp [Quoting.said, h10, hesc, hc]

/-- What is read between double quotes. U+0080 spoils the text, and U+0081 is read only behind
something else. -/
def hear (inText : Bool) : List QuotedChar → Option Bytes
  | [] => some []
  | .char c :: s =>
    if c = '\u0080' then none
    else if c = '\u0081' then (hear false s).map ((if inText then Bytes.ofChar c else []) ++ ·)
    else (hear true s).map (Bytes.ofChar c ++ ·)
  | .escaped c :: s => (hear true s).map ((QuotedChar.escaped c).value ++ ·)

/-- The text between double quotes, with its end. -/
theorem scanDouble_quotedChars {s : List QuotedChar} (hs : ∀ q ∈ s, q.Proper) (ab inText : Bool)
    (rest : Bytes) :
    ∃ raw : Option Bytes,
      scanDouble inText (marks ab (s.flatMap QuotedChar.text ++ 34 :: rest)) =
        raw.map (·, marks false rest) ∧
      raw.map (unescape true) = hear inText s := by
  induction s generalizing ab inText with
  | nil =>
    refine ⟨some [], ?_, rfl⟩
    rw [List.flatMap_nil, List.nil_append, marks_byte (by decide) (by simp) (by simp) (by simp)]
    rfl
  | cons q s ih =>
    obtain ⟨hq, hrest⟩ := List.forall_mem_cons.mp hs
    rw [List.flatMap_cons, List.append_assoc]
    cases q with
    | char c =>
      have back : c ≠ '\\' := by
        rintro rfl
        exact hq.2 (by decide)
      rw [QuotedChar.text, marks_ofChar hq.1 back]
      by_cases h80 : c = '\u0080'
      · subst h80
        exact ⟨none, rfl, rfl⟩
      by_cases h81 : c = '\u0081'
      · subst h81
        obtain ⟨raw, hraw, hear_eq⟩ := ih hrest false false
        refine ⟨raw.map ((if inText then Bytes.ofChar '\u0081' else []) ++ ·), ?_, ?_⟩
        · rw [scanDouble_joiner, hraw]
          cases raw <;> rfl
        · rw [hear, if_neg h80, if_pos rfl, ← hear_eq]
          cases raw with
          | none => rfl
          | some raw =>
            have hback : ∀ b ∈ (if inText then Bytes.ofChar '\u0081' else []), b ≠ 92 := by
              intro b hb
              cases inText with
              | false => simp at hb
              | true => exact (isText_of_mem hq.2 hb).1
            simp only [Option.map_some, unescape_texts hback]
      · obtain ⟨raw, hraw, hear_eq⟩ := ih hrest false true
        obtain ⟨b, tail, he, htail, -⟩ := ofChar_eq_cons c
        have htext : ∀ d ∈ b :: tail, IsText d := fun d hd => isText_of_mem hq.2 (he ▸ hd)
        obtain ⟨hb, htails⟩ := List.forall_mem_cons.mp htext
        refine ⟨raw.map (Bytes.ofChar c ++ ·), ?_, ?_⟩
        · rw [charMarks_of_ordinary ⟨hq.1.1, h80, h81⟩, he, List.map_cons, List.cons_append,
            scanDouble_text hb, scanDouble_texts htails, hraw]
          cases raw <;> rfl
        · rw [hear, if_neg h80, if_neg h81, ← hear_eq, he]
          cases raw with
          | none => rfl
          | some raw => exact congrArg some (unescape_texts (fun d hd => (htext d hd).1) true raw)
    | escaped c =>
      obtain ⟨raw, hraw, hear_eq⟩ := ih hrest (c == '\\') true
      refine ⟨raw.map fun s => 92 :: (Bytes.ofChar c ++ s), ?_, ?_⟩
      · rw [QuotedChar.text, List.cons_append, marks_escaped hq.1 hq.2, scanDouble_escaped, hraw]
        cases raw <;> rfl
      · rw [hear, ← hear_eq]
        cases raw with
        | none => rfl
        | some raw => exact congrArg some (unescape_escaped hq.2 raw)

/-! ### Outside quotes -/

/-- A letter, a digit or one of the characters that have no meaning of their own outside quotes. -/
def IsBare (c : Char) : Prop :=
  c.isAlphanum = true ∨ c ∈ ['_', '.', '/', '-'] ∨ 128 ≤ c.toNat ∧ c ≠ '\u0080' ∧ c ≠ '\u0081'

instance : DecidablePred IsBare := fun _ => inferInstanceAs (Decidable (_ ∨ _ ∨ _))

namespace Segment

def text : Segment → Bytes
  | bare s => Utf8.encode s
  | escaped c => 92 :: Bytes.ofChar c
  | single s => 39 :: (s ++ [39])
  | double s => 34 :: (s.flatMap QuotedChar.text ++ [34])

def value : Segment → Bytes
  | bare s => Utf8.encode s
  | escaped c => Bytes.ofChar c
  | single s => s
  | double s => s.flatMap QuotedChar.value

def Proper : Segment → Prop
  | bare s => s ≠ [] ∧ ∀ c ∈ s, IsBare c
  | escaped c => Stands c ∧ c ≠ '\n'
  | single s => Writable s ∧ 39 ∉ s
  | double s => ∀ q ∈ s, q.Proper

def isQuoted : Segment → Bool
  | single _ | double _ => true
  | bare _ | escaped _ => false

/-- What is read of a part. -/
def heard : Segment → Option Bytes
  | bare s => some (Utf8.encode s)
  | escaped c => some (Bytes.ofChar c)
  | single s => if [0xC2, 0x80] <:+: s then none else some (Line.heard true s)
  | double s => hear false s

end Segment

/-- The bytes that a bare text does not simply go on with: blanks, line ends, operators, quotes,
dollar signs and backslashes. -/
def breaking : Bytes := [32, 9, 13, 10, 38, 124, 59, 40, 41, 60, 62, 34, 39, 36, 96, 92]

theorem not_mem_breaking_of_wide {b : UInt8} (h : 0x80 ≤ b) : b ∉ 35 :: breaking := by
  have hascii : (35 :: breaking).all (· < 0x80) = true := by decide
  intro hm
  exact absurd h (UInt8.not_le.mpr (of_decide_eq_true (List.all_eq_true.mp hascii b hm)))

theorem scanBare_text {b : UInt8} (hb : b ∉ breaking) (ms : List Mark) :
    scanBare (.byte b :: ms) = (b :: (scanBare ms).1, (scanBare ms).2) := by
  simp only [breaking, List.mem_cons, List.not_mem_nil, or_false, not_or] at hb
  rw [scanBare.eq_def]
  simp [endsWord, isBlank, isOperatorStart, hb]

theorem scanBare_texts {bs : Bytes} (hbs : ∀ b ∈ bs, b ∉ breaking) (ms : List Mark) :
    scanBare (bs.map .byte ++ ms) = (bs ++ (scanBare ms).1, (scanBare ms).2) := by
  induction bs with
  | nil => rfl
  | cons b bs ih =>
    obtain ⟨hb, hrest⟩ := List.forall_mem_cons.mp hbs
    rw [List.map_cons, List.cons_append, scanBare_text hb, ih hrest]
    rfl

theorem IsBare.ordinary {c : Char} (h : IsBare c) : Stands c ∧ c ≠ '\\' ∧ Ordinary c := by
  have hne {k : Char} (hk : ¬ IsBare k) : c ≠ k := by
    rintro rfl
    exact hk h
  exact ⟨⟨hne (by decide), hne (by decide)⟩, hne (by decide), hne (by decide), hne (by decide),
    hne (by decide)⟩

theorem IsBare.not_mem_breaking {c : Char} (h : IsBare c) :
    ∀ b ∈ Bytes.ofChar c, b ∉ 35 :: breaking := by
  have hnot : (35 :: breaking).all (fun b => !decide (IsBare (Char.ofNat b.toNat))) = true := by
    decide +kernel
  intro b hb hm
  have hnat : b.toNat = c.toNat :=
    (Json.mem_ofChar hb).resolve_right fun hwide => not_mem_breaking_of_wide hwide hm
  have hbare : IsBare (Char.ofNat b.toNat) := by rwa [hnat, Char.ofNat_toNat]
  simpa [hbare] using List.all_eq_true.mp hnot b hm

/-- A bare text, whatever comes behind it. -/
theorem scanBare_bare {s : List Char} (hs : ∀ c ∈ s, IsBare c) (ab : Bool) (rest : Bytes) :
    ∃ ab', scanBare (marks ab (Utf8.encode s ++ rest)) =
      (Utf8.encode s ++ (scanBare (marks ab' rest)).1, (scanBare (marks ab' rest)).2) := by
  induction s generalizing ab with
  | nil => exact ⟨ab, rfl⟩
  | cons c s ih =>
    obtain ⟨hc, hs⟩ := List.forall_mem_cons.mp hs
    obtain ⟨stands, back, ordinary⟩ := hc.ordinary
    obtain ⟨ab', h⟩ := ih hs false
    refine ⟨ab', ?_⟩
    rw [Utf8.encode_cons, List.append_assoc, marks_ofChar stands back,
      charMarks_of_ordinary ordinary, scanBare_texts fun b hb hm => hc.not_mem_breaking b hb (List.mem_cons_of_mem _ hm), h,
      List.append_assoc]

theorem scanBare_escaped (c : Char) (ms : List Mark) :
    scanBare (.byte 92 :: (charMarks c ++ ms)) =
      (92 :: Bytes.ofChar c ++ (scanBare ms).1, (scanBare ms).2) := by
  unfold charMarks
  split
  · next h80 =>
    subst h80
    rfl
  · split
    · next h81 =>
      subst h81
      rfl
    · obtain ⟨b, tail, he, htail, -⟩ := ofChar_eq_cons c
      have hb : ∀ d ∈ tail, d ∉ breaking := fun d hd hm =>
        not_mem_breaking_of_wide (htail d hd) (List.mem_cons_of_mem _ hm)
      rw [he, List.map_cons, List.cons_append, scanBare, scanBare_texts hb]
      rfl

namespace Segment

/-- A part outside quotes, whatever comes behind it. -/
theorem scanBare_text {seg : Segment} (hseg : seg.Proper) (hq : seg.isQuoted = false) (ab : Bool)
    (rest : Bytes) :
    ∃ ab', scanBare (marks ab (seg.text ++ rest)) =
      (seg.text ++ (scanBare (marks ab' rest)).1, (scanBare (marks ab' rest)).2) := by
  cases seg with
  | single s | double s => cases hq
  | bare s => exact scanBare_bare hseg.2 ab rest
  | escaped c =>
    refine ⟨c == '\\', ?_⟩
    rw [text, List.cons_append, marks_escaped hseg.1 hseg.2, scanBare_escaped]

theorem unescape_text {seg : Segment} (hseg : seg.Proper) (hq : seg.isQuoted = false) (s : Bytes) :
    unescape false (seg.text ++ s) = seg.value ++ unescape false s := by
  cases seg with
  | single s | double s => cases hq
  | bare t =>
    refine unescape_texts ?_ false s
    intro b hb
    obtain ⟨c, hc, hb⟩ := List.mem_flatMap.mp hb
    rintro rfl
    exact (hseg.2 c hc).not_mem_breaking 92 hb (by decide)
  | escaped c =>
    obtain ⟨b, tail, he, htail, -⟩ := ofChar_eq_cons c
    have h10 : b ≠ 10 := by
      rintro rfl
      exact head?_ofChar (k := '\n') (by decide) hseg.2 [] (by rw [he]; rfl)
    have hback : ∀ d ∈ tail, d ≠ 92 := fun d hd => (isText_of_wide (htail d hd)).1
    rw [text, value, he, List.cons_append, List.cons_append, unescape_escape, unescape_texts hback]
    simp [Quoting.said, h10]

/-- Parts outside quotes are one bare text up to the quote or the end behind them. -/
theorem scanBare_texts {segs : List Segment} (hsegs : ∀ seg ∈ segs, seg.Proper)
    (hq : ∀ seg ∈ segs, seg.isQuoted = false) (ab : Bool) (rest : Bytes) :
    ∃ ab', scanBare (marks ab (segs.flatMap text ++ rest)) =
      (segs.flatMap text ++ (scanBare (marks ab' rest)).1, (scanBare (marks ab' rest)).2) := by
  induction segs generalizing ab with
  | nil => exact ⟨ab, rfl⟩
  | cons seg segs ih =>
    obtain ⟨hseg, hsegs⟩ := List.forall_mem_cons.mp hsegs
    obtain ⟨hfirst, hq⟩ := List.forall_mem_cons.mp hq
    rw [List.flatMap_cons, List.append_assoc]
    obtain ⟨ab₁, h₁⟩ := scanBare_text hseg hfirst ab (segs.flatMap text ++ rest)
    obtain ⟨ab₂, h₂⟩ := ih hsegs hq ab₁
    exact ⟨ab₂, by rw [h₁, h₂, List.append_assoc]⟩

theorem unescape_texts {segs : List Segment} (hsegs : ∀ seg ∈ segs, seg.Proper)
    (hq : ∀ seg ∈ segs, seg.isQuoted = false) :
    unescape false (segs.flatMap text) = segs.flatMap value := by
  induction segs with
  | nil => rfl
  | cons seg segs ih =>
    obtain ⟨hseg, hsegs⟩ := List.forall_mem_cons.mp hsegs
    obtain ⟨hfirst, hq⟩ := List.forall_mem_cons.mp hq
    rw [List.flatMap_cons, unescape_text hseg hfirst, ih hsegs hq, List.flatMap_cons]

/-- What is read of parts one behind the other. -/
def hearAll : List Segment → Option Bytes
  | [] => some []
  | seg :: segs => seg.heard.bind fun v => (hearAll segs).map (v ++ ·)

theorem hearAll_append {front : List Segment} (hq : ∀ seg ∈ front, seg.isQuoted = false)
    (back : List Segment) :
    hearAll (front ++ back) = (hearAll back).map (front.flatMap value ++ ·) := by
  induction front with
  | nil => simp
  | cons seg front ih =>
    obtain ⟨hfirst, hq⟩ := List.forall_mem_cons.mp hq
    have hseg : seg.heard = some seg.value := by
      cases seg with
      | single s | double s => cases hfirst
      | bare s | escaped c => rfl
    rw [List.cons_append, hearAll, hseg, Option.bind_some, ih hq, Option.map_map]
    congr 1
    funext v
    simp

end Segment

/-! ### Whole words -/

/-- The lexemes of a word: a bare text that is the whole word, or a first part and more parts. -/
inductive WordShape : List Lexeme → Prop
  | whole (raw : Bytes) : WordShape [.bare raw .word]
  | bare (raw : Bytes) {more : List Lexeme} (h : ∀ x ∈ more, State.isWord x = true) :
      WordShape (.bare raw .part :: more)
  | part (v : Bytes) {more : List Lexeme} (h : ∀ x ∈ more, State.isWord x = true) :
      WordShape (.part v :: more)

theorem WordShape.isWord {xs : List Lexeme} (h : WordShape xs) :
    ∀ x ∈ xs, State.isWord x = true := by
  cases h with
  | whole raw => simp [State.isWord]
  | bare raw h | part v h => exact List.forall_mem_cons.mpr ⟨rfl, h⟩

namespace Segment

/-- A part in quotes. -/
theorem scan_quoted {seg : Segment} (hseg : seg.Proper) (hq : seg.isQuoted = true) (w sp ab : Bool)
    (rest : Bytes) :
    scan w sp (marks ab (seg.text ++ rest)) =
      seg.heard.bind fun v => (scan true false (marks false rest)).map (⟨sp, .part v⟩ :: ·) := by
  cases seg with
  | bare s | escaped c => cases hq
  | single s =>
    obtain ⟨writable, quote⟩ := hseg
    have htext : marks ab ((single s).text ++ rest) =
        .byte 39 :: marks false (s ++ 39 :: rest) := by
      rw [text, List.cons_append, List.append_assoc, List.singleton_append,
        marks_byte (by decide) (by simp) (by simp) (by simp)]
      rfl
    rw [htext, heard]
    split
    · next closer => exact scan_unquotable w sp quote closer rest
    · next closer => exact scan_quotable w sp ⟨quote, writable.nul, writable.cr, closer⟩ rest
  | double s =>
    have htext : marks ab ((double s).text ++ rest) =
        .byte 34 :: marks false (s.flatMap QuotedChar.text ++ 34 :: rest) := by
      rw [text, List.cons_append, List.append_assoc, List.singleton_append,
        marks_byte (by decide) (by simp) (by simp) (by simp)]
      rfl
    obtain ⟨raw, hraw, hear_eq⟩ := scanDouble_quotedChars hseg false false rest
    rw [htext, heard, ← hear_eq]
    cases raw with
    | none => exact scan_doubleQuoted_none w sp hraw
    | some raw => exact scan_doubleQuoted w sp hraw

/-- A part outside quotes starts a bare text. -/
theorem scan_unquoted {seg : Segment} (hseg : seg.Proper) (hq : seg.isQuoted = false)
    (w sp ab : Bool) (rest : Bytes) {raw : Bytes} {ending : Ending} {after : List Mark}
    (h : scanBare (marks ab (seg.text ++ rest)) = (raw, ending, after)) :
    scan w sp (marks ab (seg.text ++ rest)) =
      (scan (bareEnding raw ending == .word) false after).map
        (⟨sp, .bare raw (bareEnding raw ending)⟩ :: ·) := by
  have start {b : UInt8} {ms : List Mark} (hb : b ∉ 35 :: breaking.erase 92)
      (he : marks ab (seg.text ++ rest) = .byte b :: ms) :
      scan w sp (marks ab (seg.text ++ rest)) =
        (scan (bareEnding raw ending == .word) false after).map
          (⟨sp, .bare raw (bareEnding raw ending)⟩ :: ·) := by
    have hlist : 35 :: breaking.erase 92 =
        [35, 32, 9, 13, 10, 38, 124, 59, 40, 41, 60, 62, 34, 39, 36, 96] := by decide
    simp only [hlist, List.mem_cons, List.not_mem_nil, or_false, not_or] at hb
    rw [he] at h ⊢
    exact scan_bare w sp (by simp [isBlank, hb]) (by simp [hb]) (by simp [hb]) (by simp [hb])
      (by simp [hb]) (by simp [hb]) (by simp [hb]) (by simp [isOperatorStart, hb]) h
  cases seg with
  | single s | double s => cases hq
  | escaped c => exact start (by decide) (marks_escaped hseg.1 hseg.2 ab rest)
  | bare s =>
    obtain ⟨hne, hs⟩ := hseg
    cases s with
    | nil => exact absurd rfl hne
    | cons c s =>
      have hc := hs c List.mem_cons_self
      obtain ⟨stands, back, ordinary⟩ := hc.ordinary
      obtain ⟨b, tail, he, -⟩ := ofChar_eq_cons c
      have hb := hc.not_mem_breaking b (by rw [he]; exact List.mem_cons_self)
      have hmarks : marks ab ((bare (c :: s)).text ++ rest) =
          .byte b :: (tail.map .byte ++ marks false (Utf8.encode s ++ rest)) := by
        rw [text, Utf8.encode_cons, List.append_assoc, marks_ofChar stands back,
          charMarks_of_ordinary ordinary, he]
        rfl
      exact start (fun hm => hb (List.cons_subset_cons 35 List.erase_subset hm)) hmarks

/-- A bare text ends before a quote. -/
theorem scanBare_quoted {seg : Segment} (hq : seg.isQuoted = true) (ab : Bool) (rest : Bytes) :
    scanBare (marks ab (seg.text ++ rest)) = ([], .part, marks ab (seg.text ++ rest)) := by
  cases seg with
  | bare s | escaped c => cases hq
  | single s | double s =>
    rw [text, List.cons_append, marks_byte (by decide) (by simp) (by simp) (by simp)]
    rfl

/-- Parts outside quotes, and what starts with a quoted one. -/
theorem exists_cut (segs : List Segment) :
    ∃ front back, segs = front ++ back ∧ (∀ seg ∈ front, seg.isQuoted = false) ∧
      ∀ seg ∈ back.head?, seg.isQuoted = true := by
  induction segs with
  | nil => exact ⟨[], [], rfl, by simp, by simp⟩
  | cons seg segs ih =>
    cases hq : seg.isQuoted with
    | true => exact ⟨[], seg :: segs, rfl, by simp, by simpa using hq⟩
    | false =>
      obtain ⟨front, back, rfl, hfront, hback⟩ := ih
      exact ⟨seg :: front, back, rfl, List.forall_mem_cons.mpr ⟨hq, hfront⟩, hback⟩

/-- The lexemes of parts one behind the other. -/
theorem scan_segments (segs : List Segment) (hsegs : ∀ seg ∈ segs, seg.Proper) (w sp ab : Bool) :
    ∃ xs : Option (List Lexeme),
      scan w sp (marks ab (segs.flatMap text)) = xs.map (unbroken sp) ∧
      xs.map wordOf = hearAll segs ∧
      ∀ ys ∈ xs, (∀ x ∈ ys, State.isWord x = true) ∧ (segs ≠ [] → WordShape ys) := by
  match segs with
  | [] => exact ⟨some [], scan.eq_1 w sp, rfl, by simp⟩
  | seg :: segs =>
    obtain ⟨hseg, hrest⟩ := List.forall_mem_cons.mp hsegs
    cases hq : seg.isQuoted with
    | true =>
      obtain ⟨xs, hscan, hword, hshape⟩ := scan_segments segs hrest true false false
      refine ⟨seg.heard.bind fun v => xs.map (.part v :: ·), ?_, ?_, ?_⟩
      · rw [List.flatMap_cons, scan_quoted hseg hq, hscan]
        cases seg.heard <;> cases xs <;> rfl
      · rw [hearAll, ← hword]
        cases seg.heard <;> cases xs <;> rfl
      · intro ys hys
        obtain ⟨v, -, hys⟩ := Option.bind_eq_some_iff.mp hys
        obtain ⟨more, hmore, rfl⟩ := Option.map_eq_some_iff.mp hys
        have shape : WordShape (.part v :: more) := .part v (hshape more hmore).1
        exact ⟨shape.isWord, fun _ => shape⟩
    | false =>
      -- The parts up to the next quoted one are one bare text.
      obtain ⟨front, back, hcut, hfront, hback⟩ := exists_cut segs
      subst hcut
      have unquoted : ∀ s ∈ seg :: front, s.isQuoted = false :=
        List.forall_mem_cons.mpr ⟨hq, hfront⟩
      have hproper : ∀ s ∈ seg :: front, s.Proper :=
        List.forall_mem_cons.mpr ⟨hseg, fun s hs => hrest s (List.mem_append_left back hs)⟩
      have htext : seg.text ++ (front ++ back).flatMap text =
          (seg :: front).flatMap text ++ back.flatMap text := by simp
      have hvalue : hearAll (seg :: (front ++ back)) =
          (hearAll back).map ((seg :: front).flatMap value ++ ·) := hearAll_append unquoted back
      obtain ⟨ab', hbare⟩ := scanBare_texts hproper unquoted ab (back.flatMap text)
      rw [← htext] at hbare
      rw [hvalue, List.flatMap_cons]
      cases back with
      | nil =>
        have hend : scanBare (marks ab' (([] : List Segment).flatMap text)) = ([], .word, []) := by
          rw [List.flatMap_nil, marks, scanBare]
        rw [hend] at hbare
        refine ⟨some [.bare ((seg :: front).flatMap text ++ []) .word], ?_, ?_, ?_⟩
        · rw [scan_unquoted hseg hq w sp ab _ hbare, scan.eq_1]
          rfl
        · rw [Option.map_some, wordOf, List.append_nil, List.flatMap_singleton, Lexeme.value,
            unescape_texts hproper unquoted]
          simp [hearAll]
        · rintro ys ⟨⟩
          exact ⟨(WordShape.whole _).isWord, fun _ => .whole _⟩
      | cons next back =>
        obtain ⟨xs, hscan, hword, hshape⟩ := scan_segments (next :: back)
          (fun s hs => hrest s (List.mem_append_right front hs)) false false ab'
        have hquote : scanBare (marks ab' ((next :: back).flatMap text)) =
            ([], .part, marks ab' ((next :: back).flatMap text)) :=
          scanBare_quoted (hback next rfl) ab' (back.flatMap text)
        rw [hquote, List.append_nil] at hbare
        refine ⟨xs.map (.bare ((seg :: front).flatMap text) .part :: ·), ?_, ?_, ?_⟩
        · rw [scan_unquoted hseg hq w sp ab _ hbare]
          change (scan false false (marks ab' ((next :: back).flatMap text))).map _ = _
          rw [hscan, Option.map_map, Option.map_map]
          rfl
        · rw [← hword, Option.map_map, Option.map_map]
          congr 1
          funext ys
          rw [Function.comp_apply, Function.comp_apply, wordOf, List.flatMap_cons, Lexeme.value,
            unescape_texts hproper unquoted, wordOf]
        · intro ys hys
          obtain ⟨more, hmore, rfl⟩ := Option.map_eq_some_iff.mp hys
          have shape : WordShape (.bare ((seg :: front).flatMap text) .part :: more) :=
            .bare _ (hshape more hmore).1
          exact ⟨shape.isWord, fun _ => shape⟩
termination_by segs.length

end Segment

end CommandShell.Line
