import CommandShell.Bytes.Quoted
import CommandShell.Proofs.JsonScalar
import Mathlib.Algebra.Group.Nat.Defs

/-! Texts between double quotes can be read back. The quoted form of a text tells the text and where the
form ends, whatever follows it. -/
namespace CommandShell.Bytes

/-! Hexadecimal digits. -/

/-- The value of hexadecimal digits. -/
def fromHex (s : Bytes) : Nat := s.foldl (fun n b => 16 * n + (Json.hexValue b).getD 0) 0

theorem fromHex_append_singleton (s : Bytes) (b : UInt8) :
    fromHex (s ++ [b]) = 16 * fromHex s + (Json.hexValue b).getD 0 := List.foldl_append

theorem digits_of_lt {n : Nat} (h : n < 16) :
    digits 16 n false = [(Nat.digitChar n).toNat.toUInt8] := by
  rw [digits, Nat.toDigits_of_lt_base h]
  rfl

theorem digits_of_le {n : Nat} (h : 16 ≤ n) :
    digits 16 n false = digits 16 (n / 16) false ++ [(Nat.digitChar (n % 16)).toNat.toUInt8] := by
  rw [digits, Nat.toDigits_of_base_le (by decide) h, List.map_append]
  rfl

theorem fromHex_digits (n : Nat) : fromHex (digits 16 n false) = n := by
  have digit (d : Nat) (hd : d < 16) : (Json.hexValue (Nat.digitChar d).toNat.toUInt8).getD 0 = d := by
    revert d
    decide
  induction n using Nat.strongRecOn with
  | ind n ih =>
    by_cases h : n < 16
    · rw [digits_of_lt h]
      exact (Nat.zero_add _).trans (digit n h)
    · rw [digits_of_le (by omega), fromHex_append_singleton, ih (n / 16) (by omega),
        digit (n % 16) (by omega)]
      omega

theorem fromHex_hex (width n : Nat) : fromHex (hex width n) = n := by
  have hzeros (k : Nat) (s : Bytes) : fromHex (List.replicate k 48 ++ s) = fromHex s := by
    induction k with
    | zero => rfl
    | succ k ih => exact ih
  rw [hex, padded, hzeros, fromHex_digits]

theorem length_hex {width n : Nat} (hwidth : 0 < width) (h : n < 16 ^ width) :
    (hex width n).length = width := by
  have hle : (digits 16 n false).length ≤ width := by
    rw [digits, List.length_map]
    exact (Nat.length_toDigits_le_iff (by decide) hwidth).mpr h
  rw [hex, padded, List.length_append, List.length_replicate]
  omega

/-! One rune. -/

/-- The character that is meant by a letter behind a backslash. -/
def ofLetter (b : UInt8) : Char :=
  if b = 97 then '\x07' else if b = 98 then '\x08' else if b = 116 then '\t'
  else if b = 110 then '\n' else if b = 118 then '\x0B' else if b = 102 then '\x0C'
  else if b = 114 then '\r' else Char.ofNat b.toNat

/-- The rune of a code with two digits: a character or a stray byte. -/
def ofByte (n : Nat) : Rune := if n < 0x80 then .char (Char.ofNat n) else .bad n.toUInt8

/-- Reads one rune of a quoted form. -/
def readRune : Bytes → Option (Rune × Bytes)
  | 92 :: b :: s =>
    if b = 120 then some (ofByte (fromHex (s.take 2)), s.drop 2)
    else if b = 117 then some (.char (Char.ofNat (fromHex (s.take 4))), s.drop 4)
    else if b = 85 then some (.char (Char.ofNat (fromHex (s.take 8))), s.drop 8)
    else some (.char (ofLetter b), s)
  | a :: s => some ((Utf8.first a s).1, s.drop (Utf8.first a s).2)
  | [] => none

/-- Bytes that stand for themselves are none of ASCII. -/
def Stray : Rune → Prop
  | .char _ => True
  | .bad b => 0x80 ≤ b

theorem stray_of_mem_runes {s : Bytes} : ∀ r ∈ Utf8.runes s, Stray r := by
  intro r hr
  cases r with
  | char c => trivial
  | bad b => exact Utf8.bad_mem_runes hr

section
variable {width n : Nat} (hwidth : 0 < width) (h : n < 16 ^ width) (s : Bytes)
include hwidth h

theorem take_hex : fromHex ((hex width n ++ s).take width) = n := by
  rw [List.take_left' (length_hex hwidth h), fromHex_hex]

theorem drop_hex : (hex width n ++ s).drop width = s := List.drop_left' (length_hex hwidth h)

end

/-- A quoted rune is read back, whatever follows. -/
theorem readRune_quoteRune {r : Rune} (hr : Stray r) (s : Bytes) :
    readRune (quoteRune r ++ s) = some (r, s) := by
  cases r with
  | bad b =>
    have hlt : b.toNat < 16 ^ 2 := b.toNat_lt
    have hle : ¬ b.toNat < 0x80 := Nat.not_lt.mpr hr
    have hbyte : ofByte b.toNat = .bad b := by
      rw [ofByte, if_neg hle]
      exact congrArg Rune.bad (UInt8.ofNat_toNat)
    change some (ofByte (fromHex ((hex 2 b.toNat ++ s).take 2)), (hex 2 b.toNat ++ s).drop 2) = _
    rw [take_hex (by decide) hlt, drop_hex (by decide) hlt, hbyte]
  | char c =>
    have hnat : Char.ofNat c.toNat = c := Char.ofNat_toNat c
    have hlt : c.toNat < 0x110000 := by
      have hvalid : c.toNat < 0xD800 ∨ 0xDFFF < c.toNat ∧ c.toNat < 0x110000 := c.valid
      omega
    rw [quoteRune]
    by_cases hquote : c = '"'
    · rw [hquote]
      rfl
    by_cases hback : c = '\\'
    · rw [hback]
      rfl
    rw [if_neg hquote, if_neg hback]
    by_cases hprint : Unicode.isPrintable c = true
    · obtain ⟨a, tail, he, hfirst⟩ := Utf8.first_ofChar c s
      have ha : a ≠ 92 := by
        rintro rfl
        have hmem : (92 : UInt8) ∈ ofChar c := by
          rw [he]
          exact List.mem_cons_self
        rcases Json.mem_ofChar hmem with hn | hn
        · exact hback (Char.toNat_inj.mp hn.symm)
        · exact absurd hn (by decide)
      rw [if_pos hprint, he, List.cons_append, readRune]
      · rw [hfirst, List.drop_left]
      · rintro b s' hb -
        exact ha hb
    rw [if_neg hprint]
    generalize c.toNat = n at hnat hlt
    subst hnat
    split
    -- the controls that have a letter of their own
    · rfl
    · rfl
    · rfl
    · rfl
    · rfl
    · rfl
    · rfl
    · split
      · next hsmall =>
        have hbyte : n < 0x80 := by
          simp only [Bool.or_eq_true, decide_eq_true_eq] at hsmall
          omega
        have hwidth : n < 16 ^ 2 := by omega
        change some (ofByte (fromHex ((hex 2 n ++ s).take 2)), (hex 2 n ++ s).drop 2) = _
        rw [take_hex (by decide) hwidth, drop_hex (by decide) hwidth, ofByte, if_pos hbyte]
      · split
        · next hwidth =>
          change some (Rune.char (Char.ofNat (fromHex ((hex 4 n ++ s).take 4))), (hex 4 n ++ s).drop 4) = _
          rw [take_hex (by decide) hwidth, drop_hex (by decide) hwidth]
        · have hwidth : n < 16 ^ 8 := by omega
          change some (Rune.char (Char.ofNat (fromHex ((hex 8 n ++ s).take 8))), (hex 8 n ++ s).drop 8) = _
          rw [take_hex (by decide) hwidth, drop_hex (by decide) hwidth]

/-- A quoted rune does not start as the end of the quotes does. -/
theorem quoteRune_ne (r : Rune) (s t : Bytes) : quoteRune r ++ s ≠ 34 :: t := by
  intro h
  have hhead : (quoteRune r ++ s).head? = some 34 := by rw [h]; rfl
  cases r with
  | bad b => cases hhead
  | char c =>
    rw [quoteRune] at hhead
    split at hhead
    · cases hhead
    next hquote =>
    split at hhead
    · cases hhead
    split at hhead
    · have hmem : (34 : UInt8) ∈ ofChar c := by
        obtain ⟨a, tail, he, -⟩ := Utf8.first_ofChar c s
        rw [he] at hhead ⊢
        rw [Option.some.inj hhead]
        exact List.mem_cons_self
      rcases Json.mem_ofChar hmem with hn | hn
      · exact hquote (Char.toNat_inj.mp hn.symm)
      · exact absurd hn (by decide)
    · split at hhead
      all_goals first | cases hhead | skip
      split at hhead
      · cases hhead
      · split at hhead <;> cases hhead

theorem quotedBody_append_injective {rs rs' : List Rune} (h : ∀ r ∈ rs, Stray r)
    (h' : ∀ r ∈ rs', Stray r) {s t : Bytes}
    (heq : rs.flatMap quoteRune ++ 34 :: s = rs'.flatMap quoteRune ++ 34 :: t) : rs = rs' ∧ s = t := by
  induction rs generalizing rs' with
  | nil =>
    cases rs' with
    | nil => exact ⟨rfl, (List.cons.inj heq).2⟩
    | cons r' rs' =>
      rw [List.flatMap_cons, List.append_assoc] at heq
      exact absurd heq.symm (quoteRune_ne r' _ _)
  | cons r rs ih =>
    obtain ⟨hr, hrs⟩ := List.forall_mem_cons.mp h
    rw [List.flatMap_cons, List.append_assoc] at heq
    cases rs' with
    | nil => exact absurd heq (quoteRune_ne r _ _)
    | cons r' rs' =>
      obtain ⟨hr', hrs'⟩ := List.forall_mem_cons.mp h'
      rw [List.flatMap_cons, List.append_assoc] at heq
      have hread := congrArg readRune heq
      rw [readRune_quoteRune hr, readRune_quoteRune hr'] at hread
      obtain ⟨rfl, hrest⟩ := Prod.mk.inj (Option.some.inj hread)
      obtain ⟨rfl, hs⟩ := ih hrs hrs' hrest
      exact ⟨rfl, hs⟩

/-- The quoted form of a text tells the text and where it ends. -/
theorem quoted_append_injective {w w' s t : Bytes} (h : quoted w ++ s = quoted w' ++ t) :
    w = w' ∧ s = t := by
  have hbody (w s : Bytes) :
      quoted w ++ s = 34 :: ((Utf8.runes w).flatMap quoteRune ++ 34 :: s) := by
    rw [quoted, List.append_assoc, List.append_assoc]
    rfl
  rw [hbody, hbody] at h
  obtain ⟨hrunes, hs⟩ :=
    quotedBody_append_injective stray_of_mem_runes stray_of_mem_runes (List.cons.inj h).2
  rw [← Utf8.flatMap_runes w, hrunes, Utf8.flatMap_runes]
  exact ⟨rfl, hs⟩

end CommandShell.Bytes
