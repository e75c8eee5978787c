import CommandShell.Json.Decode
import CommandShell.Json.Reader
import CommandShell.Proofs.Utf8

/-! Strings and numbers are read back as they were written, whatever follows them. Of a string only
stray bytes are lost: they are read back as replacement characters. -/
namespace CommandShell

namespace Bytes

theorem ofString_ofList (l : List Char) : ofString (String.ofList l) = l.flatMap ofChar := by
  simp [ofString, String.toUTF8, List.utf8Encode]
  rfl

theorem ofChar_digitChar : ∀ d < 10, ofChar d.digitChar = [(48 + d).toUInt8] := by
  decide

theorem ofNat_of_lt {n : Nat} (h : n < 10) : ofNat n = [(48 + n).toUInt8] := by
  rw [ofNat, Nat.repr, Nat.toDigits_of_lt_base h, ofString_ofList]
  simpa using ofChar_digitChar n h

theorem ofNat_of_le {n : Nat} (h : 10 ≤ n) :
    ofNat n = ofNat (n / 10) ++ [(48 + n % 10).toUInt8] := by
  rw [ofNat, ofNat, Nat.repr, Nat.repr, Nat.toDigits_of_base_le (by decide) h, ofString_ofList,
    ofString_ofList, List.flatMap_append]
  simpa using ofChar_digitChar (n % 10) (by omega)

theorem isDigit_ofNat (n : Nat) : ∀ b ∈ ofNat n, isDigit b = true := by
  have digit (d : Nat) (hd : d < 10) : isDigit (48 + d).toUInt8 = true := by
    revert d
    decide
  induction n using Nat.strongRecOn with
  | ind n ih =>
    intro b hb
    by_cases h : n < 10
    · rw [ofNat_of_lt h, List.mem_singleton] at hb
      rw [hb]
      exact digit n h
    · rw [ofNat_of_le (by omega), List.mem_append, List.mem_singleton] at hb
      rcases hb with hb | rfl
      · exact ih (n / 10) (by omega) b hb
      · exact digit (n % 10) (by omega)

/-- Only zero starts with a zero. -/
theorem ofNat_cons (n : Nat) : ∃ d ds, ofNat n = d :: ds ∧ (d = 48 → n = 0) := by
  have digit (d : Nat) (hd : d < 10) (h : (48 + d).toUInt8 = 48) : d = 0 := by
    revert d
    decide
  induction n using Nat.strongRecOn with
  | ind n ih =>
    by_cases h : n < 10
    · exact ⟨_, [], ofNat_of_lt h, digit n h⟩
    · obtain ⟨d, ds, he, hz⟩ := ih (n / 10) (by omega)
      refine ⟨d, ds ++ [(48 + n % 10).toUInt8], ?_, fun hd => ?_⟩
      · rw [ofNat_of_le (by omega), he, List.cons_append]
      · have := hz hd
        omega

theorem foldl_ofNat (n : Nat) :
    (ofNat n).foldl (fun n d => 10 * n + (d.toNat - 48)) 0 = n := by
  have digit (d : Nat) (hd : d < 10) : (48 + d).toUInt8.toNat - 48 = d := by
    revert d
    decide
  induction n using Nat.strongRecOn with
  | ind n ih =>
    by_cases h : n < 10
    · simpa [ofNat_of_lt h] using digit n h
    · rw [ofNat_of_le (by omega), List.foldl_append, ih (n / 10) (by omega)]
      simp only [List.foldl_cons, List.foldl_nil, digit (n % 10) (by omega)]
      omega

theorem toNat?_ofNat (n : Nat) : toNat? (ofNat n) = some n := by
  obtain ⟨d, ds, he, -⟩ := ofNat_cons n
  have hne : (ofNat n).isEmpty = false := by rw [he]; rfl
  rw [toNat?, hne, List.all_eq_true.mpr (isDigit_ofNat n), foldl_ofNat]
  rfl

theorem ofInt_ofNat (n : Nat) : ofInt n = ofNat n := rfl

theorem ofInt_negSucc (n : Nat) : ofInt (.negSucc n) = 45 :: ofNat (n + 1) := rfl

end Bytes

namespace Json

theorem toInt?_ofInt {low high n : Int} (hl : low ≤ n) (hh : n ≤ high) :
    toInt? low high (Bytes.ofInt n) = some n := by
  have hn (n : Nat) := Bytes.toNat?_ofNat n
  cases n with
  | ofNat n =>
    have hsign (digits : Bytes) : Bytes.ofNat n ≠ 45 :: digits := by
      intro he
      have hdigit := Bytes.isDigit_ofNat n 45 (by rw [he]; exact List.mem_cons_self)
      exact absurd hdigit (by decide)
    rw [Int.ofNat_eq_natCast, Bytes.ofInt_ofNat, toInt?, hn]
    · exact if_pos ⟨hl, hh⟩
    · exact hsign
  | negSucc n =>
    rw [Bytes.ofInt_negSucc, toInt?, hn]
    exact if_pos ⟨hl, hh⟩

/-! The reader. -/

/-- A container with one value more. -/
def Frame.push (v : Json) : Frame → Frame
  | .array items => .array (v :: items)
  | .object fields name => .object ((name, v) :: fields) []

/-- Reads on behind a value that is complete. -/
def deliver (v : Json) (rest : Bytes) : List Frame → Except ReadError (Json × Bytes)
  | [] => .ok (v, rest)
  | frame :: stack => Reader.run ⟨frame.push v :: stack, .separator⟩ rest

section Reader
variable {r r' : Reader} {b : UInt8} {stack : List Frame} {v : Json} (rest : Bytes)

theorem run_more (h : r.step b = .more r') : r.run (b :: rest) = r'.run rest := by
  rw [Reader.run, h]

theorem run_accept (h : r.step b = accept v stack) : r.run (b :: rest) = deliver v rest stack := by
  rw [Reader.run, h]
  rcases stack with _ | ⟨_ | _, stack⟩ <;> rfl

end Reader

/-- The rest of a word completes its value. -/
theorem run_word (v : Json) (left : Bytes) (h : left ≠ []) (stack : List Frame) (rest : Bytes) :
    Reader.run ⟨stack, .word left v⟩ (left ++ rest) = deliver v rest stack := by
  induction left with
  | nil => exact absurd rfl h
  | cons b left ih =>
    cases left with
    | nil => exact run_accept rest (by simp [Reader.step])
    | cons c left =>
      have hstep : Reader.step ⟨stack, .word (b :: c :: left) v⟩ b =
          .more ⟨stack, .word (c :: left) v⟩ := by
        simp [Reader.step]
      rw [List.cons_append, run_more _ hstep]
      exact ih (by simp)

/-! Strings. -/

section Text
variable (stack : List Frame) (isName : Bool) (raw rest : Bytes)

/-- A byte that stands for itself in a string. -/
def IsPlain (b : UInt8) : Prop := b ≠ 34 ∧ b ≠ 92 ∧ ¬b < 32

theorem run_plain {s : Bytes} (hs : ∀ b ∈ s, IsPlain b) :
    Reader.run ⟨stack, .text isName raw .none⟩ (s ++ rest) =
      Reader.run ⟨stack, .text isName (s.reverse ++ raw) .none⟩ rest := by
  induction s generalizing raw with
  | nil => rfl
  | cons b s ih =>
    obtain ⟨hq, hb, hc⟩ := hs b List.mem_cons_self
    have hstep : Reader.step ⟨stack, .text isName raw .none⟩ b =
        .more ⟨stack, .text isName (b :: raw) .none⟩ := by
      simp [Reader.step, stepText, hq, hb, hc]
    rw [List.cons_append, run_more _ hstep, ih _ fun c hc => hs c (List.mem_cons_of_mem _ hc)]
    simp

theorem run_hex {a b c d : UInt8} {n : Nat} (h : hex4 a b c d = some n) :
    Reader.run ⟨stack, .text isName raw .none⟩ ([92, 117, a, b, c, d] ++ rest) =
      Reader.run ⟨stack, .text isName ([92, 117, a, b, c, d].reverse ++ raw) .none⟩ rest := by
  simp only [hex4, Option.bind_eq_bind, Option.bind_eq_some_iff] at h
  obtain ⟨x, ha, y, hb, z, hc, u, hd, -⟩ := h
  have hstep (raw : Bytes) {b : UInt8} {x : Nat} (hb : hexValue b = some x) (left : Nat) :
      Reader.step ⟨stack, .text isName raw (.hex left)⟩ b =
        .more ⟨stack, .text isName (b :: raw) (if left ≤ 1 then .none else .hex (left - 1))⟩ := by
    simp [Reader.step, stepText, hb]
  have hbackslash : Reader.step ⟨stack, .text isName raw .none⟩ 92 =
      .more ⟨stack, .text isName (92 :: raw) .backslash⟩ := rfl
  have hu : Reader.step ⟨stack, .text isName (92 :: raw) .backslash⟩ 117 =
      .more ⟨stack, .text isName (117 :: 92 :: raw) (.hex 4)⟩ := rfl
  calc
    _ = Reader.run ⟨stack, .text isName (117 :: 92 :: raw) (.hex 4)⟩ (a :: b :: c :: d :: rest) := by
      simp only [List.cons_append, List.nil_append, run_more _ hbackslash, run_more _ hu]
    _ = Reader.run ⟨stack, .text isName (a :: 117 :: 92 :: raw) (.hex 3)⟩ (b :: c :: d :: rest) :=
      run_more _ (hstep _ ha 4)
    _ = Reader.run ⟨stack, .text isName (b :: a :: 117 :: 92 :: raw) (.hex 2)⟩ (c :: d :: rest) :=
      run_more _ (hstep _ hb 3)
    _ = Reader.run ⟨stack, .text isName (c :: b :: a :: 117 :: 92 :: raw) (.hex 1)⟩ (d :: rest) :=
      run_more _ (hstep _ hc 2)
    _ = Reader.run ⟨stack, .text isName (d :: c :: b :: a :: 117 :: 92 :: raw) .none⟩ rest :=
      run_more _ (hstep _ hd 1)

end Text

/-- How a character is written: as it is, with a letter, or with its number. -/
inductive Spelling : Char → Bytes → Prop where
  | plain {c : Char} (h : ∀ b ∈ Bytes.ofChar c, IsPlain b) : Spelling c (Bytes.ofChar c)
  | letter {c : Char} {b : UInt8} (hb : b ∈ ("bfnrt\\/\"" : Bytes))
      (hc : Bytes.ofChar c = [simpleEscape b]) : Spelling c [92, b]
  | code {c : Char} {x y z u : UInt8} {n : Nat} (h : hex4 x y z u = some n)
      (hn : n < 0xD800 ∨ 0xDFFF < n) (hc : Bytes.ofChar c = ofCode n) :
      Spelling c [92, 117, x, y, z, u]

theorem escaped_eq (n : Nat) (h : n ∈ List.range 32 ++ [38, 60, 62, 0x2028, 0x2029]) :
    ∃ x y z u, escaped n = [92, 117, x, y, z, u] ∧ hex4 x y z u = some n := by
  have hall : ∀ n ∈ List.range 32 ++ [38, 60, 62, 0x2028, 0x2029],
      let digit (i : Nat) : UInt8 := (escaped n).getD i 0
      escaped n = [92, 117, digit 2, digit 3, digit 4, digit 5] ∧
        hex4 (digit 2) (digit 3) (digit 4) (digit 5) = some n := by
    decide
  exact ⟨_, _, _, _, hall n h⟩

theorem mem_ofChar {c : Char} {b : UInt8} (h : b ∈ Bytes.ofChar c) :
    b.toNat = c.toNat ∨ 128 ≤ b.toNat := by
  have hc : c.toNat = c.val.toNat := rfl
  simp only [Bytes.ofChar, String.utf8EncodeChar] at h
  split at h
  · obtain rfl := List.mem_singleton.mp h
    refine .inl ?_
    simp
    omega
  · right
    split at h
    · simp only [List.mem_cons, List.not_mem_nil, or_false] at h
      rcases h with rfl | rfl <;> simp <;> omega
    · split at h
      · simp only [List.mem_cons, List.not_mem_nil, or_false] at h
        rcases h with rfl | rfl | rfl <;> simp <;> omega
      · simp only [List.mem_cons, List.not_mem_nil, or_false] at h
        rcases h with rfl | rfl | rfl | rfl <;> simp <;> omega

theorem ofChar_ne_nil (c : Char) : Bytes.ofChar c ≠ [] := by
  simp only [Bytes.ofChar, String.utf8EncodeChar]
  split
  · simp
  · split
    · simp
    · split <;> simp

theorem isPlain_ofChar {c : Char} (hq : c ≠ '"') (hb : c ≠ '\\') (hc : ¬c.toNat < 0x20) :
    ∀ b ∈ Bytes.ofChar c, IsPlain b := by
  have hq : c.toNat ≠ 34 := fun h => hq (Char.toNat_inj.mp h)
  have hb : c.toNat ≠ 92 := fun h => hb (Char.toNat_inj.mp h)
  intro b hm
  have hn := mem_ofChar hm
  refine ⟨?_, ?_, ?_⟩
  · rintro rfl
    simp at hn
    omega
  · rintro rfl
    simp at hn
    omega
  · simp only [UInt8.lt_iff_toNat_lt, UInt8.reduceToNat]
    omega

theorem spelling_char (markup : Bool) (c : Char) : Spelling c (writeRune markup (.char c)) := by
  have code (h : c.toNat ∈ List.range 32 ++ [38, 60, 62, 0x2028, 0x2029]) :
      Spelling c (escaped c.toNat) := by
    obtain ⟨x, y, z, u, he, hx⟩ := escaped_eq c.toNat h
    have hn : c.toNat < 0xD800 := by
      simp at h
      omega
    rw [he]
    refine .code hx (.inl hn) ?_
    have hs : (0xD800 ≤ c.toNat && c.toNat < 0xE000) = false := by
      simp
      omega
    simp [ofCode, hs]
  rw [writeRune]
  by_cases hq : c = '"'
  · subst hq
    exact .letter (by decide) rfl
  by_cases hb : c = '\\'
  · subst hb
    exact .letter (by decide) rfl
  by_cases hn : c = '\n'
  · subst hn
    exact .letter (by decide) rfl
  by_cases hr : c = '\r'
  · subst hr
    exact .letter (by decide) rfl
  by_cases ht : c = '\t'
  · subst ht
    exact .letter (by decide) rfl
  by_cases hbs : c = '\x08'
  · subst hbs
    exact .letter (by decide) rfl
  by_cases hff : c = '\x0C'
  · subst hff
    exact .letter (by decide) rfl
  simp only [hq, hb, hn, hr, ht, hbs, hff, if_false]
  split
  · next h => exact code (List.mem_append_left _ (List.mem_range.mpr h))
  · next h =>
    split
    · next hm =>
      simp only [Bool.and_eq_true, Bool.or_eq_true, decide_eq_true_eq] at hm
      obtain ⟨-, (rfl | rfl) | rfl⟩ := hm <;> exact code (by decide)
    · split
      · next hs =>
        simp only [Bool.or_eq_true, decide_eq_true_eq] at hs
        obtain rfl | rfl := hs <;> exact code (by decide)
      · exact .plain (isPlain_ofChar hq hb h)

/-- A stray byte is spelled as a replacement character. -/
theorem spelling_writeRune (markup : Bool) (r : Rune) : Spelling r.toChar (writeRune markup r) := by
  cases r with
  | char c => exact spelling_char markup c
  | bad b =>
    have hx : hex4 102 102 102 100 = some 0xFFFD := by decide
    exact .code hx (.inr (by decide)) rfl

theorem run_spelling {c : Char} {s : Bytes} (h : Spelling c s) (stack : List Frame) (isName : Bool)
    (raw rest : Bytes) :
    Reader.run ⟨stack, .text isName raw .none⟩ (s ++ rest) =
      Reader.run ⟨stack, .text isName (s.reverse ++ raw) .none⟩ rest := by
  cases h with
  | plain hp => exact run_plain stack isName raw rest hp
  | code hx _ _ => exact run_hex stack isName raw rest hx
  | @letter b hb _ =>
    have hbackslash : Reader.step ⟨stack, .text isName raw .none⟩ 92 =
        .more ⟨stack, .text isName (92 :: raw) .backslash⟩ := rfl
    have hu : b ≠ 117 := by
      rintro rfl
      exact absurd hb (by decide)
    have hletter : Reader.step ⟨stack, .text isName (92 :: raw) .backslash⟩ b =
        .more ⟨stack, .text isName (b :: 92 :: raw) .none⟩ := by
      have hcontains : ("bfnrt\\/\"" : Bytes).contains b = true := List.contains_iff_mem.mpr hb
      simp only [Reader.step, stepText, hu, if_false, hcontains, if_true]
    rw [List.cons_append, run_more _ hbackslash, List.cons_append, run_more _ hletter]
    rfl

/-! Escapes are resolved again. -/

/-- What begins like a number escape is one. -/
def WellEscaped (t : Bytes) : Prop :=
  ∀ x y z u rest, t = 92 :: 117 :: x :: y :: z :: u :: rest → ∃ n, hex4 x y z u = some n

theorem unquote_of_ne {b : UInt8} (h : b ≠ 92) (t : Bytes) : unquote (b :: t) = b :: unquote t := by
  rw [unquote] <;> simp_all

theorem unquote_letter {b : UInt8} (h : b ≠ 117) (t : Bytes) :
    unquote (92 :: b :: t) = simpleEscape b :: unquote t := by
  rw [unquote] <;> simp_all

theorem unquote_code {x y z u : UInt8} {n : Nat} (h : hex4 x y z u = some n)
    (hn : n < 0xD800 ∨ 0xDFFF < n) {t : Bytes} (ht : WellEscaped t) :
    unquote (92 :: 117 :: x :: y :: z :: u :: t) = ofCode n ++ unquote t := by
  -- another number escape behind this one might be the second half of a pair
  by_cases hpair : ∃ x' y' z' u' rest, t = 92 :: 117 :: x' :: y' :: z' :: u' :: rest
  · obtain ⟨x', y', z', u', rest, rfl⟩ := hpair
    obtain ⟨n', hn'⟩ := ht x' y' z' u' rest rfl
    have hhigh : (decide (0xD800 ≤ n) && decide (n < 0xDC00)) = false := by
      simp
      omega
    rw [unquote, h, hn']
    simp only [hhigh, Bool.false_and, Bool.false_eq_true, if_false]
  · rw [unquote, h]
    intro x' y' z' u' rest he
    exact hpair ⟨x', y', z', u', rest, he⟩

theorem unquote_spelling {c : Char} {s t : Bytes} (h : Spelling c s) (ht : WellEscaped t) :
    unquote (s ++ t) = Bytes.ofChar c ++ unquote t := by
  cases h with
  | plain hp =>
    generalize Bytes.ofChar c = s at hp
    induction s with
    | nil => rfl
    | cons b s ih =>
      rw [List.cons_append, unquote_of_ne (hp b List.mem_cons_self).2.1,
        ih fun c hc => hp c (List.mem_cons_of_mem _ hc), List.cons_append]
  | @letter b hb hc =>
    have hu : b ≠ 117 := by
      rintro rfl
      exact absurd hb (by decide)
    rw [hc]
    exact unquote_letter hu t
  | code hx hn hc =>
    rw [hc]
    exact unquote_code hx hn ht

/-- The text between the quotes. -/
def spelled (markup : Bool) (rs : List Rune) : Bytes := rs.flatMap (writeRune markup)

theorem spelled_cons (markup : Bool) (r : Rune) (rs : List Rune) :
    spelled markup (r :: rs) = writeRune markup r ++ spelled markup rs := rfl

theorem wellEscaped_spelled (markup : Bool) (rs : List Rune) : WellEscaped (spelled markup rs) := by
  intro x y z u rest he
  cases rs with
  | nil => cases he
  | cons r rs =>
    rw [spelled_cons] at he
    have hs := spelling_writeRune markup r
    generalize writeRune markup r = s at he hs
    cases hs with
    | plain hp =>
      have hne := ofChar_ne_nil r.toChar
      generalize Bytes.ofChar r.toChar = s at he hp hne
      cases s with
      | nil => exact absurd rfl hne
      | cons b s =>
        obtain ⟨rfl, -⟩ := List.cons_eq_cons.mp he
        exact absurd rfl (hp 92 List.mem_cons_self).2.1
    | letter hb _ =>
      obtain ⟨-, hrest⟩ := List.cons_eq_cons.mp he
      obtain ⟨rfl, -⟩ := List.cons_eq_cons.mp hrest
      exact absurd hb (by decide)
    | code hx _ _ =>
      cases he
      exact ⟨_, hx⟩

theorem unquote_spelled (markup : Bool) (rs : List Rune) :
    unquote (spelled markup rs) = Utf8.encode (rs.map Rune.toChar) := by
  induction rs with
  | nil => rfl
  | cons r rs ih =>
    rw [spelled_cons, unquote_spelling (spelling_writeRune markup r) (wellEscaped_spelled markup rs),
      ih]
    rfl

theorem run_spelled (markup : Bool) (rs : List Rune) (stack : List Frame) (isName : Bool)
    (raw rest : Bytes) :
    Reader.run ⟨stack, .text isName raw .none⟩ (spelled markup rs ++ rest) =
      Reader.run ⟨stack, .text isName ((spelled markup rs).reverse ++ raw) .none⟩ rest := by
  induction rs generalizing raw with
  | nil => rfl
  | cons r rs ih =>
    rw [spelled_cons, List.append_assoc, run_spelling (spelling_writeRune markup r), ih]
    simp

/-- A text without stray bytes is made of characters. -/
theorem exists_chars {s : Bytes} (h : Utf8.isValid s = true) :
    ∃ cs : List Char, Utf8.runes s = cs.map .char ∧ s = cs.flatMap Bytes.ofChar := by
  have hrunes : ∃ cs : List Char, Utf8.runes s = cs.map .char := by
    unfold Utf8.isValid at h
    generalize Utf8.runes s = rs at h
    induction rs with
    | nil => exact ⟨[], rfl⟩
    | cons r rs ih =>
      cases r with
      | bad b => simp at h
      | char c =>
        obtain ⟨cs, rfl⟩ := ih (by simpa using h)
        exact ⟨c :: cs, rfl⟩
  obtain ⟨cs, hcs⟩ := hrunes
  refine ⟨cs, hcs, ?_⟩
  have hb := Utf8.flatMap_runes s
  rw [hcs, List.flatMap_map] at hb
  exact hb.symm

theorem scrub_of_isValid {s : Bytes} (h : Utf8.isValid s = true) : Utf8.scrub s = s := by
  obtain ⟨cs, hr, hs⟩ := exists_chars h
  rw [Utf8.scrub, Utf8.chars, hr, List.map_map, Utf8.encode]
  have hid : (Rune.toChar ∘ Rune.char : Char → Char) = id := rfl
  rw [hid, List.map_id, ← hs]

/-- Replacing stray bytes leaves no text empty that was not. -/
theorem isEmpty_scrub (s : Bytes) : (Utf8.scrub s).isEmpty = s.isEmpty := by
  cases s with
  | nil => simp [Utf8.scrub, Utf8.chars, Utf8.runes, Utf8.encode]
  | cons a s =>
    rw [Utf8.scrub, Utf8.chars, Utf8.runes, List.map_cons, Utf8.encode, List.flatMap_cons]
    simp [ofChar_ne_nil]

/-- A written string is a quote, its characters and a quote, and reading the characters and the
second quote completes the text, with its stray bytes replaced. -/
theorem writeString_cons (markup : Bool) (s : Bytes) :
    ∃ body, writeString markup s = 34 :: (body ++ [34]) ∧ ∀ stack isName rest,
      Reader.run ⟨stack, .text isName [] .none⟩ (body ++ 34 :: rest) =
        if isName then Reader.run ⟨setName (Utf8.scrub s) stack, .colon⟩ rest
        else deliver (.string (Utf8.scrub s)) rest stack := by
  have htext : textOf (spelled markup (Utf8.runes s)).reverse = Utf8.scrub s := by
    rw [textOf, List.reverse_reverse, unquote_spelled]
    exact scrub_of_isValid (Utf8.isValid_scrub s)
  refine ⟨spelled markup (Utf8.runes s), rfl, fun stack isName rest => ?_⟩
  rw [run_spelled, List.append_nil]
  cases isName with
  | true =>
    refine run_more rest ?_
    simp [Reader.step, stepText, htext]
  | false =>
    refine run_accept rest ?_
    simp [Reader.step, stepText, htext]

/-! Numbers. -/

/-- A byte that can follow a value in its container. -/
def EndsValue (b : UInt8) : Prop := b = 44 ∨ b = 93 ∨ b = 125

theorem ne_of_isDigit {d k : UInt8} (hd : Bytes.isDigit d = true) (hk : Bytes.isDigit k = false) :
    d ≠ k := by
  rintro rfl
  rw [hk] at hd
  cases hd

theorem isSpace_of_isDigit {d : UInt8} (hd : Bytes.isDigit d = true) : isSpace d = false := by
  simp only [isSpace, Bool.or_eq_false_iff, beq_eq_false_iff_ne]
  exact ⟨⟨⟨ne_of_isDigit hd (by decide), ne_of_isDigit hd (by decide)⟩,
    ne_of_isDigit hd (by decide)⟩, ne_of_isDigit hd (by decide)⟩

theorem run_digits {ds : Bytes} (hd : ∀ d ∈ ds, Bytes.isDigit d = true) (stack : List Frame)
    (raw rest : Bytes) :
    Reader.run ⟨stack, .number raw .whole⟩ (ds ++ rest) =
      Reader.run ⟨stack, .number (ds.reverse ++ raw) .whole⟩ rest := by
  induction ds generalizing raw with
  | nil => rfl
  | cons d ds ih =>
    have hstep : Reader.step ⟨stack, .number raw .whole⟩ d =
        .more ⟨stack, .number (d :: raw) .whole⟩ := by
      simp [Reader.step, nextDigits, hd d List.mem_cons_self]
    rw [List.cons_append, run_more _ hstep, ih fun c hc => hd c (List.mem_cons_of_mem _ hc)]
    simp

/-- What follows a number completes it. -/
theorem run_numberEnd {digits : Digits} (hd : digits = .zero ∨ digits = .whole) {c : UInt8}
    (hc : EndsValue c) (frame : Frame) (stack : List Frame) (raw rest : Bytes) :
    Reader.run ⟨frame :: stack, .number raw digits⟩ (c :: rest) =
      deliver (.number raw.reverse) (c :: rest) (frame :: stack) := by
  have hstep : Reader.step ⟨frame :: stack, .number raw digits⟩ c =
      Reader.step ⟨frame.push (.number raw.reverse) :: stack, .separator⟩ c := by
    rcases hd with rfl | rfl <;> rcases hc with rfl | rfl | rfl <;> cases frame <;> rfl
  rw [deliver, Reader.run, Reader.run, hstep]

/-- The digits of a number, once it is known how they begin. -/
theorem run_ofNat (n : Nat) {c : UInt8} (hc : EndsValue c) (frame : Frame) (stack : List Frame)
    (rest raw : Bytes) {r : Reader}
    (hzero : r.step 48 = .more ⟨frame :: stack, .number (48 :: raw) .zero⟩)
    (hwhole : ∀ d, Bytes.isDigit d = true → d ≠ 48 →
      r.step d = .more ⟨frame :: stack, .number (d :: raw) .whole⟩) :
    r.run (Bytes.ofNat n ++ c :: rest) =
      deliver (.number (raw.reverse ++ Bytes.ofNat n)) (c :: rest) (frame :: stack) := by
  obtain ⟨d, ds, he, hz⟩ := Bytes.ofNat_cons n
  have hdigits := Bytes.isDigit_ofNat n
  by_cases hd : d = 48
  · obtain rfl := hz hd
    have hzero' : Bytes.ofNat 0 = [48] := Bytes.ofNat_of_lt (by decide)
    rw [hzero', List.singleton_append, run_more _ hzero, run_numberEnd (.inl rfl) hc]
    simp
  · rw [he] at hdigits ⊢
    rw [List.cons_append, run_more _ (hwhole d (hdigits d List.mem_cons_self) hd),
      run_digits fun c hc => hdigits c (List.mem_cons_of_mem _ hc), run_numberEnd (.inr rfl) hc]
    simp

/-- A whole number is read back in a container. -/
theorem run_int (n : Int) {c : UInt8} (hc : EndsValue c) (frame : Frame) (stack : List Frame)
    (rest : Bytes) :
    Reader.run ⟨frame :: stack, .value⟩ (Bytes.ofInt n ++ c :: rest) =
      deliver (.int n) (c :: rest) (frame :: stack) := by
  cases n with
  | ofNat n =>
    refine run_ofNat n hc frame stack rest [] rfl fun d hd hne => ?_
    have hother {k : UInt8} (hk : Bytes.isDigit k = false) : d ≠ k := ne_of_isDigit hd hk
    simp only [Reader.step, beginValue, isSpace_of_isDigit hd, Bool.false_eq_true,
      hother (k := 123) (by decide), hother (k := 91) (by decide), hother (k := 34) (by decide),
      hother (k := 45) (by decide), hne, if_false, hd, if_true]
  | negSucc n =>
    rw [Bytes.ofInt_negSucc, List.cons_append]
    have hsign : Reader.step ⟨frame :: stack, .value⟩ 45 =
        .more ⟨frame :: stack, .number [45] .sign⟩ := rfl
    rw [run_more _ hsign]
    refine run_ofNat (n + 1) hc frame stack rest [45] rfl fun d hd hne => ?_
    simp [Reader.step, nextDigits, hne, hd]

end Json

end CommandShell
