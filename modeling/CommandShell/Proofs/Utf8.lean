import CommandShell.Bytes.Utf8

/-! Runes keep every byte of a text, and a text may be cut before any byte that can start a
character: the two parts then fall into their runes on their own. Characters that are encoded are the
runes of their encoding. -/
namespace CommandShell.Utf8

/-- A byte that never continues a character. -/
def startsRune (c : UInt8) : Bool := c < 0x80 || 0xC0 ≤ c

private theorem continues_eq_false {lo hi c : UInt8} (hc : startsRune c = true) (hlo : 0x80 ≤ lo)
    (hhi : hi ≤ 0xBF) : continues lo hi c = false := by
  simp only [startsRune, continues, Bool.or_eq_true, decide_eq_true_eq, UInt8.lt_iff_toNat_lt,
    UInt8.le_iff_toNat_le] at *
  grind

theorem first_append (a : UInt8) (s t : Bytes) {c : UInt8} (hc : startsRune c = true) :
    first a (s ++ c :: t) = first a s := by
  have hlast : continues 0x80 0xBF c = false := continues_eq_false hc (by decide) (by decide)
  unfold first
  split
  · rfl
  · split
    · cases s <;> simp [hlast]
    · split
      · have hsecond : continues (if a = 0xE0 then 0xA0 else 0x80)
              (if a = 0xED then 0x9F else 0xBF) c = false :=
            continues_eq_false hc (by split <;> decide) (by split <;> decide)
        match s with
        | [] => cases t <;> simp [hsecond]
        | [_] => simp [hlast]
        | _ :: _ :: _ => rfl
      · split
        · have hsecond : continues (if a = 0xF0 then 0x90 else 0x80)
              (if a = 0xF4 then 0x8F else 0xBF) c = false :=
            continues_eq_false hc (by split <;> decide) (by split <;> decide)
          match s with
          | [] => rcases t with _ | ⟨_, _ | _⟩ <;> simp [hsecond]
          | [_] => cases t <;> simp [hlast]
          | [_, _] => simp [hlast]
          | _ :: _ :: _ :: _ => rfl
        · rfl

theorem first_le (a : UInt8) (s : Bytes) : (first a s).2 ≤ s.length := by
  unfold first
  grind

theorem runes_append (s t : Bytes) {c : UInt8} (hc : startsRune c = true) :
    runes (s ++ c :: t) = runes s ++ runes (c :: t) := by
  fun_induction runes s with
  | case1 => rfl
  | case2 a s ih =>
    rw [List.cons_append, runes, first_append a s t hc,
      List.drop_append_of_le_length (first_le a s), ih]
    rfl

theorem isValid_append (s t : Bytes) {c : UInt8} (hc : startsRune c = true) :
    isValid (s ++ c :: t) = (isValid s && isValid (c :: t)) := by
  simp only [isValid, runes_append s t hc, List.all_append]

theorem isValid_nil : isValid [] = true := by
  simp [isValid, runes]

theorem runes_ascii (s : Bytes) {c : UInt8} (hc : c < 0x80) :
    runes (c :: s) = .char (Char.ofNat c.toNat) :: runes s := by
  have hf : first c s = (.char (Char.ofNat c.toNat), 0) := by simp [first, hc]
  rw [runes, hf, List.drop_zero]

theorem isValid_ascii (s : Bytes) {c : UInt8} (hc : c < 0x80) : isValid (c :: s) = isValid s := by
  simp [isValid, runes_ascii s hc]

theorem isValid_append_of_ascii {s : Bytes} (h : ∀ b ∈ s, b < 0x80) (t : Bytes) :
    isValid (s ++ t) = isValid t := by
  induction s with
  | nil => rfl
  | cons b s ih =>
    obtain ⟨hb, hs⟩ := List.forall_mem_cons.mp h
    rw [List.cons_append, isValid_ascii _ hb, ih hs]

theorem isValid_of_ascii {s : Bytes} (h : s.all (· < 0x80) = true) : isValid s = true := by
  induction s with
  | nil => exact isValid_nil
  | cons c s ih =>
    obtain ⟨hc, hs⟩ := Bool.and_eq_true_iff.mp h
    rw [isValid_ascii s (decide_eq_true_iff.mp hc)]
    exact ih hs

private theorem first_two {a b : UInt8} (s : Bytes) (ha : 0xC2 ≤ a ∧ a ≤ 0xDF)
    (hb : 0x80 ≤ b ∧ b ≤ 0xBF) : first a (b :: s) = (build (a.toNat - 0xC0) [b], 1) := by
  have hlead : ¬ a < 0x80 := by
    simp only [UInt8.le_iff_toNat_le, UInt8.lt_iff_toNat_lt, UInt8.reduceToNat] at ha ⊢
    omega
  simp [first, continues, hlead, ha, hb]

theorem isValid_pair (s : Bytes) {a b : UInt8} (ha : 0xC2 ≤ a ∧ a ≤ 0xDF)
    (hb : 0x80 ≤ b ∧ b ≤ 0xBF) : isValid (a :: b :: s) = isValid s := by
  rw [isValid, runes, first_two s ha hb]
  rfl

/-! A character of two, three or four bytes is encoded as it was found. -/

private theorem val_ofNat {n : Nat} (h : n.isValidChar) : (Char.ofNat n).val.toNat = n := by
  rw [Char.ofNat, dif_pos h]
  rfl

private theorem toBytes_one {a : UInt8} (ha : a < 0x80) :
    Rune.toBytes (.char (Char.ofNat a.toNat)) = [a] := by
  simp only [UInt8.lt_iff_toNat_lt, UInt8.reduceToNat] at ha
  have hv : a.toNat.isValidChar := .inl (by omega)
  simp only [Rune.toBytes, Bytes.ofChar, String.utf8EncodeChar]
  rw [val_ofNat hv, if_pos (by omega)]
  simp

private theorem toBytes_two {a b : UInt8} (ha : 0xC2 ≤ a ∧ a ≤ 0xDF) (hb : 0x80 ≤ b ∧ b ≤ 0xBF) :
    Rune.toBytes (build (a.toNat - 0xC0) [b]) = [a, b] := by
  simp only [UInt8.le_iff_toNat_le, UInt8.reduceToNat] at ha hb
  have hv : (64 * (a.toNat - 0xC0) + (b.toNat - 128)).isValidChar := .inl (by omega)
  simp only [build, Rune.toBytes, Bytes.ofChar, String.utf8EncodeChar, List.foldl]
  rw [val_ofNat hv, if_neg (by omega), if_pos (by omega)]
  simp only [List.cons.injEq, ← UInt8.toNat_inj, UInt8.toNat_ofNat', and_true]
  omega

private theorem toBytes_three {a b c : UInt8} (ha : 0xE0 ≤ a ∧ a ≤ 0xEF)
    (hb : 0x80 ≤ b ∧ b ≤ 0xBF) (hc : 0x80 ≤ c ∧ c ≤ 0xBF) (hlo : a = 0xE0 → 0xA0 ≤ b)
    (hhi : a = 0xED → b ≤ 0x9F) :
    Rune.toBytes (build (a.toNat - 0xE0) [b, c]) = [a, b, c] := by
  simp only [UInt8.le_iff_toNat_le, UInt8.reduceToNat, ← UInt8.toNat_inj] at ha hb hc hlo hhi
  have hv : (64 * (64 * (a.toNat - 0xE0) + (b.toNat - 128)) + (c.toNat - 128)).isValidChar := by
    unfold Nat.isValidChar
    omega
  simp only [build, Rune.toBytes, Bytes.ofChar, String.utf8EncodeChar, List.foldl]
  rw [val_ofNat hv, if_neg (by omega), if_neg (by omega), if_pos (by omega)]
  simp only [List.cons.injEq, ← UInt8.toNat_inj, UInt8.toNat_ofNat', and_true]
  omega

private theorem toBytes_four {a b c d : UInt8} (ha : 0xF0 ≤ a ∧ a ≤ 0xF4)
    (hb : 0x80 ≤ b ∧ b ≤ 0xBF) (hc : 0x80 ≤ c ∧ c ≤ 0xBF) (hd : 0x80 ≤ d ∧ d ≤ 0xBF)
    (hlo : a = 0xF0 → 0x90 ≤ b) (hhi : a = 0xF4 → b ≤ 0x8F) :
    Rune.toBytes (build (a.toNat - 0xF0) [b, c, d]) = [a, b, c, d] := by
  simp only [UInt8.le_iff_toNat_le, UInt8.reduceToNat, ← UInt8.toNat_inj] at ha hb hc hd hlo hhi
  have hv : (64 * (64 * (64 * (a.toNat - 0xF0) + (b.toNat - 128)) + (c.toNat - 128)) +
      (d.toNat - 128)).isValidChar := by
    unfold Nat.isValidChar
    omega
  simp only [build, Rune.toBytes, Bytes.ofChar, String.utf8EncodeChar, List.foldl]
  rw [val_ofNat hv, if_neg (by omega), if_neg (by omega), if_neg (by omega)]
  simp only [List.cons.injEq, ← UInt8.toNat_inj, UInt8.toNat_ofNat', and_true]
  omega

/-- The narrower bounds that some first bytes set for the second are bounds of every second byte. -/
private theorem continues_split {a b x y : UInt8} {lo hi : UInt8} (hlo : 0x80 ≤ lo)
    (hhi : hi ≤ 0xBF)
    (h : continues (if a = x then lo else 0x80) (if a = y then hi else 0xBF) b = true) :
    (0x80 ≤ b ∧ b ≤ 0xBF) ∧ (a = x → lo ≤ b) ∧ (a = y → b ≤ hi) := by
  simp only [continues, Bool.and_eq_true, decide_eq_true_eq, UInt8.le_iff_toNat_le,
    UInt8.reduceToNat] at h hlo hhi ⊢
  split at h <;> split at h <;> grind

theorem toBytes_first (a : UInt8) (s : Bytes) :
    (first a s).1.toBytes = a :: s.take (first a s).2 := by
  have bounds {lo hi c : UInt8} (h : continues lo hi c = true) : lo ≤ c ∧ c ≤ hi := by
    simpa [continues] using h
  fun_cases first a s with
  | case1 _ ha => simpa using toBytes_one ha
  | case2 _ ha b tail hb => simpa using toBytes_two (bounds ha) (bounds hb)
  | case5 _ _ ha lo hi b c tail h =>
    obtain ⟨hb, hc⟩ := Bool.and_eq_true_iff.mp h
    obtain ⟨hb, hlo, hhi⟩ := continues_split (by decide) (by decide) hb
    simpa using toBytes_three (bounds ha) hb (bounds hc) hlo hhi
  | case8 _ _ _ ha lo hi b c d tail h =>
    obtain ⟨hbc, hd⟩ := Bool.and_eq_true_iff.mp h
    obtain ⟨hb, hc⟩ := Bool.and_eq_true_iff.mp hbc
    obtain ⟨hb, hlo, hhi⟩ := continues_split (by decide) (by decide) hb
    simpa using toBytes_four (bounds ha) hb (bounds hc) (bounds hd) hlo hhi
  | case3 | case4 | case6 | case7 | case9 | case10 | case11 => rfl

theorem flatMap_runes (s : Bytes) : (runes s).flatMap Rune.toBytes = s := by
  fun_induction runes s with
  | case1 => rfl
  | case2 a s ih =>
    rw [List.flatMap_cons, ih, toBytes_first, List.cons_append, List.take_append_drop]

theorem validPart_ascii (s : Bytes) {c : UInt8} (hc : c < 0x80) :
    validPart (c :: s) = c :: validPart s := by
  rw [validPart, runes_ascii s hc, List.takeWhile_cons, if_pos rfl, List.flatMap_cons,
    toBytes_one hc]
  rfl

private def isChar : Rune → Bool
  | .char _ => true
  | .bad _ => false

private theorem validPart_eq (s : Bytes) :
    validPart s = ((runes s).takeWhile isChar).flatMap Rune.toBytes := rfl

theorem validPart_prefix (s : Bytes) : validPart s <+: s := by
  obtain ⟨after, he⟩ := List.takeWhile_prefix (l := runes s) isChar
  refine ⟨after.flatMap Rune.toBytes, ?_⟩
  rw [validPart_eq, ← List.flatMap_append, he, flatMap_runes]

private theorem takeWhile_append_of_not_all {xs ys : List Rune} (h : xs.all isChar = false) :
    (xs ++ ys).takeWhile isChar = xs.takeWhile isChar := by
  induction xs with
  | nil => cases h
  | cons x xs ih =>
    cases x with
    | bad b => rfl
    | char c =>
      rw [List.cons_append, List.takeWhile_cons, List.takeWhile_cons, ih h]

/-- What is read of a text that goes on behind a byte that starts a character. -/
theorem validPart_append (s t : Bytes) {c : UInt8} (hc : startsRune c = true) :
    validPart (s ++ c :: t) = if isValid s then s ++ validPart (c :: t) else validPart s := by
  have hall : isValid s = (runes s).all isChar := rfl
  rw [validPart_eq, runes_append s t hc]
  cases hs : isValid s with
  | true =>
    rw [hall] at hs
    rw [List.takeWhile_append_of_pos (List.all_eq_true.mp hs), List.flatMap_append, flatMap_runes]
    rfl
  | false => rw [takeWhile_append_of_not_all (hall ▸ hs)]; rfl

/-! A character is found again where it was encoded. -/

private theorem first_three {a b c : UInt8} (s : Bytes) (ha : 0xE0 ≤ a ∧ a ≤ 0xEF)
    (hb : 0x80 ≤ b ∧ b ≤ 0xBF) (hc : 0x80 ≤ c ∧ c ≤ 0xBF) (hlo : a = 0xE0 → 0xA0 ≤ b)
    (hhi : a = 0xED → b ≤ 0x9F) :
    first a (b :: c :: s) = (build (a.toNat - 0xE0) [b, c], 2) := by
  have hlead : ¬ a < 0x80 ∧ ¬ (0xC2 ≤ a ∧ a ≤ 0xDF) := by
    simp only [UInt8.le_iff_toNat_le, UInt8.lt_iff_toNat_lt, UInt8.reduceToNat] at ha ⊢
    omega
  simp only [first, continues, hlead, ha, hc, Bool.and_eq_true, decide_eq_true_eq, if_false, if_true,
    and_self, and_true]
  rw [if_pos]
  split <;> split <;> simp_all

private theorem first_four {a b c d : UInt8} (s : Bytes) (ha : 0xF0 ≤ a ∧ a ≤ 0xF4)
    (hb : 0x80 ≤ b ∧ b ≤ 0xBF) (hc : 0x80 ≤ c ∧ c ≤ 0xBF) (hd : 0x80 ≤ d ∧ d ≤ 0xBF)
    (hlo : a = 0xF0 → 0x90 ≤ b) (hhi : a = 0xF4 → b ≤ 0x8F) :
    first a (b :: c :: d :: s) = (build (a.toNat - 0xF0) [b, c, d], 3) := by
  have hlead : ¬ a < 0x80 ∧ ¬ (0xC2 ≤ a ∧ a ≤ 0xDF) ∧ ¬ (0xE0 ≤ a ∧ a ≤ 0xEF) := by
    simp only [UInt8.le_iff_toNat_le, UInt8.lt_iff_toNat_lt, UInt8.reduceToNat] at ha ⊢
    omega
  simp only [first, continues, hlead, ha, hc, hd, Bool.and_eq_true, decide_eq_true_eq, if_false,
    if_true, and_self, and_true]
  rw [if_pos]
  split <;> split <;> simp_all

theorem first_ofChar (c : Char) (s : Bytes) :
    ∃ a tail, Bytes.ofChar c = a :: tail ∧ first a (tail ++ s) = (.char c, tail.length) := by
  have hvalid : c.toNat < 0xD800 ∨ 0xDFFF < c.toNat ∧ c.toNat < 0x110000 := c.valid
  have found {n : Nat} (hn : n = c.toNat) : Rune.char (Char.ofNat n) = .char c := by
    rw [hn, Char.ofNat_toNat]
  have hv : c.val.toNat = c.toNat := rfl
  simp only [Bytes.ofChar, String.utf8EncodeChar, hv]
  generalize hgen : c.toNat = v at *
  split
  · refine ⟨_, [], rfl, ?_⟩
    have ha : UInt8.ofNat v < 0x80 := by
      simp only [UInt8.lt_iff_toNat_lt, UInt8.toNat_ofNat', UInt8.reduceToNat]
      omega
    have hn : (UInt8.ofNat v).toNat = v := by
      rw [UInt8.toNat_ofNat']
      omega
    unfold first
    rw [if_pos ha, found hn]
    rfl
  · split
    · refine ⟨_, [_], rfl, ?_⟩
      rw [List.singleton_append, first_two, build, found]
      · rfl
      all_goals simp only [List.foldl, UInt8.le_iff_toNat_le, UInt8.toNat_ofNat', UInt8.reduceToNat]
      all_goals omega
    · split
      · refine ⟨_, [_, _], rfl, ?_⟩
        rw [List.cons_append, List.singleton_append, first_three, build, found]
        · rfl
        all_goals simp only [List.foldl, UInt8.le_iff_toNat_le, UInt8.toNat_ofNat', UInt8.reduceToNat,
          ← UInt8.toNat_inj]
        all_goals omega
      · refine ⟨_, [_, _, _], rfl, ?_⟩
        rw [List.cons_append, List.cons_append, List.singleton_append, first_four, build, found]
        · rfl
        all_goals simp only [List.foldl, UInt8.le_iff_toNat_le, UInt8.toNat_ofNat', UInt8.reduceToNat,
          ← UInt8.toNat_inj]
        all_goals omega

theorem runes_ofChar (c : Char) (s : Bytes) : runes (Bytes.ofChar c ++ s) = .char c :: runes s := by
  obtain ⟨a, tail, he, hf⟩ := first_ofChar c s
  rw [he, List.cons_append, runes, hf, List.drop_left]

theorem isValid_ofChar (c : Char) (s : Bytes) : isValid (Bytes.ofChar c ++ s) = isValid s := by
  rw [isValid, runes_ofChar]
  rfl

theorem runes_encode (cs : List Char) : runes (encode cs) = cs.map .char := by
  induction cs with
  | nil => rw [encode, List.flatMap_nil, runes, List.map_nil]
  | cons c cs ih =>
    rw [encode, List.flatMap_cons, runes_ofChar, List.map_cons]
    exact congrArg _ ih

theorem isValid_scrub (s : Bytes) : isValid (scrub s) = true := by
  rw [isValid, scrub, runes_encode, List.all_map, List.all_eq_true]
  intro c _
  rfl

/-- ASCII is never stray. -/
theorem bad_mem_runes {b : UInt8} {s : Bytes} (h : .bad b ∈ runes s) : 0x80 ≤ b := by
  have hfirst (a : UInt8) (s : Bytes) (hf : (first a s).1 = .bad b) : 0x80 ≤ b := by
    revert hf
    fun_cases first a s with
    | case1 | case2 | case5 | case8 => intro hf; cases hf
    | case3 | case4 | case6 | case7 | case9 | case10 | case11 =>
      intro hf
      cases hf
      exact UInt8.not_lt.mp ‹_›
  fun_induction runes s with
  | case1 => cases h
  | case2 a s ih =>
    rcases List.mem_cons.mp h with hb | hb
    · exact hfirst a s hb.symm
    · exact ih hb

/-! Characters and their bytes. -/

@[simp] theorem encode_nil : encode [] = [] := rfl

theorem encode_cons (c : Char) (cs : List Char) :
    encode (c :: cs) = Bytes.ofChar c ++ encode cs := rfl

theorem encode_append (cs ds : List Char) :
    encode (cs ++ ds) = encode cs ++ encode ds := List.flatMap_append

theorem ofChar_ascii {c : Char} (h : c.toNat < 128) :
    Bytes.ofChar c = [UInt8.ofNat c.toNat] := by
  have hv : c.val.toNat = c.toNat := rfl
  simp only [Bytes.ofChar, String.utf8EncodeChar, hv]
  rw [if_pos (by omega)]

/-- A character beyond ASCII: a first byte that begins nothing else, and bytes that begin nothing. -/
theorem ofChar_wide {c : Char} (h : 128 ≤ c.toNat) : ∃ a tail, Bytes.ofChar c = a :: tail ∧
    0xC2 ≤ a ∧ (∀ b ∈ tail, 0x80 ≤ b ∧ b < 0xC2) ∧
    (a = 0xC2 → c.toNat < 256 ∧ tail.head? = some (UInt8.ofNat c.toNat)) := by
  have hvalid : c.toNat < 0xD800 ∨ 0xDFFF < c.toNat ∧ c.toNat < 0x110000 := c.valid
  have hv : c.val.toNat = c.toNat := rfl
  simp only [Bytes.ofChar, String.utf8EncodeChar, hv]
  generalize c.toNat = v at *
  rw [if_neg (by omega)]
  repeat' split
  all_goals
    refine ⟨_, _, rfl, ?_⟩
    simp only [List.forall_mem_cons, List.head?_cons, Option.some.injEq, UInt8.le_iff_toNat_le,
      UInt8.lt_iff_toNat_lt, ← UInt8.toNat_inj, UInt8.toNat_ofNat', UInt8.reduceToNat]
    refine ⟨by omega, ?_, by omega⟩
    simp
    omega

/-- ASCII characters are told apart by their bytes. -/
theorem ofNat_toNat_eq_iff {c k : Char} (hc : c.toNat < 128) (hk : k.toNat < 128) :
    UInt8.ofNat c.toNat = UInt8.ofNat k.toNat ↔ c = k := by
  refine ⟨fun he => Char.toNat_inj.mp ?_, fun he => he ▸ rfl⟩
  simp only [← UInt8.toNat_inj, UInt8.toNat_ofNat'] at he
  omega

/-- An ASCII byte at the front of an encoding is a character. -/
theorem encode_eq_cons {cs : List Char} {b : UInt8} {t : Bytes} (h : encode cs = b :: t)
    (hb : b < 0x80) : ∃ rest, cs = Char.ofNat b.toNat :: rest ∧ t = encode rest := by
  cases cs with
  | nil => cases h
  | cons c cs =>
    refine ⟨cs, ?_⟩
    rw [encode, List.flatMap_cons] at h
    by_cases hc : c.toNat < 128
    · rw [ofChar_ascii hc] at h
      cases h
      have hn : (UInt8.ofNat c.toNat).toNat = c.toNat := by
        rw [UInt8.toNat_ofNat']
        omega
      exact ⟨by rw [hn, Char.ofNat_toNat], rfl⟩
    · obtain ⟨a, tail, he, ha, -⟩ := ofChar_wide (Nat.le_of_not_lt hc)
      rw [he] at h
      cases h
      exact absurd ha (by grind)

theorem encode_chars {s : Bytes} (valid : isValid s = true) : encode (chars s) = s := by
  have hrune (r : Rune) (hr : r ∈ runes s) : Bytes.ofChar r.toChar = r.toBytes := by
    have hchar := List.all_eq_true.mp valid r hr
    cases r with
    | char c => rfl
    | bad b => cases hchar
  rw [encode, chars, List.flatMap_map, List.flatMap_def, List.map_congr_left hrune,
    ← List.flatMap_def, flatMap_runes]

end CommandShell.Utf8
