import CommandShell.Proofs.QuotedWord

/-! A change of bytes that can be undone, keeps ASCII and so the way a tree is written, and leaves
only characters that the lexer takes as they are. -/
namespace CommandShell

/-- ASCII stays, and every other byte becomes a character from U+0100 on. -/
def respell (b : UInt8) : Bytes :=
  if b < 0x80 then [b] else if b < 0xC0 then [0xC4, b] else [0xC5, b - 0x40]

theorem respell_cases (b : UInt8) :
    (b < 0x80 ∧ respell b = [b]) ∨
    (∃ first c, (first = 0xC4 ∧ b = c ∨ first = 0xC5 ∧ b = c + 0x40) ∧ (0x80 ≤ c ∧ c ≤ 0xBF) ∧
      respell b = [first, c]) := by
  unfold respell
  simp only [UInt8.lt_iff_toNat_lt, UInt8.le_iff_toNat_le, UInt8.reduceToNat]
  split
  · next hb => exact .inl ⟨hb, rfl⟩
  · next h80 =>
    split
    · next hc0 => exact .inr ⟨0xC4, b, .inl ⟨rfl, rfl⟩, by omega, rfl⟩
    · next hc0 =>
      have hsub : (b - 0x40).toNat = b.toNat - 64 := by
        refine UInt8.toNat_sub_of_le b 0x40 ?_
        simp only [UInt8.le_iff_toNat_le, UInt8.reduceToNat]
        omega
      have hlt := UInt8.toNat_lt b
      exact .inr ⟨0xC5, b - 0x40, .inr ⟨rfl, (UInt8.sub_add_cancel b 0x40).symm⟩, by omega, rfl⟩

theorem respell_append_injective {a b : UInt8} {s t : Bytes}
    (h : respell a ++ s = respell b ++ t) : a = b ∧ s = t := by
  have ascii {c : UInt8} (hc : c < 0x80) : c ≠ 0xC4 ∧ c ≠ 0xC5 := by
    refine ⟨?_, ?_⟩ <;> rintro rfl <;> exact absurd hc (by decide)
  rcases respell_cases a with ⟨ha, hra⟩ | ⟨fa, ca, hfa, -, hra⟩ <;>
    rcases respell_cases b with ⟨hb, hrb⟩ | ⟨fb, cb, hfb, -, hrb⟩ <;>
    rw [hra, hrb] at h <;> simp only [List.cons_append, List.nil_append, List.cons.injEq] at h
  · exact h
  · have := ascii ha
    grind
  · have := ascii hb
    grind
  · grind

theorem respell_append_ne_nil (b : UInt8) (s : Bytes) : respell b ++ s ≠ [] := by
  unfold respell
  split
  · simp
  · split <;> simp

theorem flatMap_respell_injective {s t : Bytes} (h : s.flatMap respell = t.flatMap respell) :
    s = t := by
  induction s generalizing t with
  | nil =>
    cases t with
    | nil => rfl
    | cons b t => exact absurd h.symm (respell_append_ne_nil b _)
  | cons a s ih =>
    cases t with
    | nil => exact absurd h (respell_append_ne_nil a _)
    | cons b t =>
      obtain ⟨rfl, hrest⟩ := respell_append_injective h
      rw [ih hrest]

theorem respell_ascii {b : UInt8} (hb : b < 0x80) : respell b = [b] := if_pos hb

theorem flatMap_respell_ascii {s : Bytes} (hs : s.all (· < 0x80) = true) :
    s.flatMap respell = s := by
  induction s with
  | nil => rfl
  | cons b s ih =>
    obtain ⟨hb, hs⟩ : b < 0x80 ∧ s.all (· < 0x80) = true := by simpa using hs
    rw [List.flatMap_cons, respell_ascii hb, ih hs]
    rfl

theorem mem_flatMap_respell {s : Bytes} {c : UInt8} (h : c ∈ s.flatMap respell) :
    c ∈ s ∧ c < 0x80 ∨ 0x80 ≤ c ∧ c ≠ 0xC2 := by
  obtain ⟨b, hb, hc⟩ := List.mem_flatMap.mp h
  rcases respell_cases b with ⟨hlt, hr⟩ | ⟨first, d, hfirst, ⟨hlo, hhi⟩, hr⟩
  · rw [hr] at hc
    obtain rfl : c = b := by simpa using hc
    exact .inl ⟨hb, hlt⟩
  · rw [hr] at hc
    simp only [List.mem_cons, List.not_mem_nil, or_false] at hc
    rcases hc with rfl | rfl
    · rcases hfirst with ⟨rfl, -⟩ | ⟨rfl, -⟩ <;> exact .inr (by decide)
    · refine .inr ⟨hlo, ?_⟩
      rintro rfl
      exact absurd hhi (by decide)

theorem isValid_flatMap_respell (s : Bytes) : Utf8.isValid (s.flatMap respell) = true := by
  induction s with
  | nil => exact Utf8.isValid_nil
  | cons b s ih =>
    rw [List.flatMap_cons]
    rcases respell_cases b with ⟨hlt, hr⟩ | ⟨first, d, hfirst, hd, hr⟩
    · rw [hr, List.singleton_append, Utf8.isValid_ascii _ hlt, ih]
    · have hlead : 0xC2 ≤ first ∧ first ≤ 0xDF := by
        rcases hfirst with ⟨rfl, -⟩ | ⟨rfl, -⟩ <;> decide
      rw [hr, List.cons_append, List.singleton_append, Utf8.isValid_pair _ hlead hd, ih]

namespace Line

theorem quotedBody_respell (s : Bytes) :
    (quotedBody s).flatMap respell = quotedBody (s.flatMap respell) := by
  induction s with
  | nil => rfl
  | cons b s ih =>
    have hrest : quotedBody (respell b ++ s.flatMap respell) =
        quotedBody (respell b) ++ quotedBody (s.flatMap respell) := List.flatMap_append
    have hbody : quotedBody (b :: s) = quotedBody [b] ++ quotedBody s := by simp [quotedBody]
    rw [List.flatMap_cons, hrest, hbody, List.flatMap_append, ih]
    congr 1
    by_cases h39 : b = 39
    · subst h39
      rfl
    · have hmem : 39 ∉ respell b := by
        intro hm
        have hone : 39 ∈ [b].flatMap respell := by simpa using hm
        rcases mem_flatMap_respell hone with ⟨hb, -⟩ | ⟨hlo, -⟩
        · exact h39 (List.mem_singleton.mp hb).symm
        · exact absurd hlo (by decide)
      rw [quotedBody_of_not_mem hmem, quotedBody_of_not_mem (by simpa using Ne.symm h39)]
      simp

end Line

theorem quoted_respell (s : Bytes) : (quoted s).flatMap respell = quoted (s.flatMap respell) := by
  rw [Line.quoted_eq, Line.quoted_eq, ← Line.quotedBody_respell, List.cons_append,
    List.flatMap_cons, List.flatMap_append]
  rfl

theorem join_respell (words : List Bytes) :
    (Bytes.join " " (words.map quoted)).flatMap respell =
      Bytes.join " " ((words.map (·.flatMap respell)).map quoted) := by
  induction words with
  | nil => rfl
  | cons w words ih =>
    cases words with
    | nil => exact quoted_respell w
    | cons w' words =>
      simp only [List.map_cons, Bytes.join, List.flatMap_append, quoted_respell] at ih ⊢
      rw [ih]
      rfl

theorem Redirections.print_respell (files : Redirections) :
    files.print.flatMap respell = (files.mapTexts (·.flatMap respell)).print := by
  have htarget {op : Bytes} (hop : op.all (· < 0x80) = true) (s : Bytes) :
      (target op s).flatMap respell = target op (s.flatMap respell) := by
    cases s with
    | nil => rfl
    | cons b s =>
      have hne : ((b :: s).flatMap respell).isEmpty = false := by
        rw [List.flatMap_cons, List.isEmpty_eq_false_iff]
        exact respell_append_ne_nil b _
      rw [target, target, hne, if_neg (by simp), if_neg (by simp), List.flatMap_append,
        flatMap_respell_ascii hop, quoted_respell]
  simp only [print, mapTexts, List.flatMap_append]
  rw [htarget (by decide), htarget (by decide), htarget (by decide), htarget (by decide)]

/-- Respelling the text of a tree is writing the tree with respelled words. -/
theorem Tree.print_respell (t : Tree) :
    t.print.flatMap respell = (t.mapTexts (·.flatMap respell)).print := by
  induction t with
  | absent => rfl
  | node kind argv files l r ihl ihr =>
    cases kind with
    | plain =>
      simp only [print, mapTexts, List.flatMap_append, join_respell, Redirections.print_respell]
    | subshell =>
      simp only [print, mapTexts, List.flatMap_append, ihl, Redirections.print_respell]
      rfl
    | sequence | and | or | pipe =>
      simp only [print, mapTexts, List.flatMap_append, ihl, ihr]
      rfl
    | unknown => rfl

end CommandShell
