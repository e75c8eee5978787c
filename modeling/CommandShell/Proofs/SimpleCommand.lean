import CommandShell.Alias
import CommandShell.Proofs.LineCharacters
import Mathlib

/-! Splitting a definition into words compared with parsing it as a line: where the two go by the
same rules they find the same words, and wherever they do not they find different ones. -/
namespace CommandShell

namespace Words

/-! Where the splitter and the lexer go by the same rules. -/

/-- Whether a character of a definition is taken as it would be in a line. A line has no NUL and no
carriage return before a newline, fewer blanks, and more characters to escape. -/
def State.agrees (s : State) (c : Char) (rest : List Char) : Bool :=
  c ≠ '\x00' && !(c = '\r' && rest.head? = some '\n') &&
  match s with
  | .between | .bare => !Unicode.isBlank c || (blanks ++ ['\n']).contains c
  | .quote _ => true
  | .escape none => c ≠ '\n'
  | .escape (some _) => !(['\n', '$', '`'].contains c)

/-- A backslash at the end of a line stays, a definition cannot end in one. -/
def agreesFrom (s : State) : List Char → Bool
  | [] => s ≠ .escape none
  | c :: rest => s.agrees c rest && agreesFrom (s.next c) rest

/-- Whether a definition is taken as it would be in a line, all of it. -/
def agrees (text : Bytes) : Bool := agreesFrom .between (Utf8.chars text)

/-- A measure of texts that only grows by what the splitter keeps and a line does not, and only
shrinks by what a line keeps and the splitter does not. -/
def byteWeight (b : UInt8) : Int :=
  if b = 92 ∨ b = 10 ∨ b = 13 then 1 else if b = 11 ∨ b = 12 ∨ 0x80 ≤ b then -1 else 0

def weight : Bytes → Int
  | [] => 0
  | b :: s => byteWeight b + weight s

theorem weight_append (s t : Bytes) : weight (s ++ t) = weight s + weight t := by
  induction s with
  | nil => exact (Int.zero_add _).symm
  | cons b s ih => rw [List.cons_append, weight, weight, ih, Int.add_assoc]

theorem weight_joint : weight [92, 10] = 2 := by decide

/-- The weight of characters. -/
def heft (cs : List Char) : Int := weight (Utf8.encode cs)

theorem heft_append (cs ds : List Char) : heft (cs ++ ds) = heft cs + heft ds := by
  rw [heft, Utf8.encode_append, weight_append]
  rfl

theorem weight_wide {bs : Bytes} (h : ∀ b ∈ bs, 0x80 ≤ b) : weight bs = -bs.length := by
  induction bs with
  | nil => rfl
  | cons b bs ih =>
    obtain ⟨hb, hrest⟩ := List.forall_mem_cons.mp h
    have hbyte : byteWeight b = -1 := by
      rw [byteWeight, if_neg (by grind), if_pos (.inr (.inr hb))]
    rw [weight, hbyte, ih hrest, List.length_cons]
    omega

@[simp] theorem heft_nil : heft [] = 0 := rfl

theorem heft_newline (cs : List Char) : heft ('\n' :: cs) = 1 + heft cs := heft_append ['\n'] cs

theorem heft_cr (cs : List Char) : heft ('\r' :: cs) = 1 + heft cs := heft_append ['\r'] cs

theorem heft_backslash (cs : List Char) : heft ('\\' :: cs) = 1 + heft cs := heft_append ['\\'] cs

/-- The blanks of a definition that are no blanks of a line. -/
theorem heft_blank {c : Char} (h : Unicode.isBlank c = true) (hb : c ∉ blanks) (hn : c ≠ '\n') :
    heft [c] < 0 := by
  rw [heft, Utf8.encode_cons, Utf8.encode_nil, List.append_nil]
  by_cases hc : 128 ≤ c.toNat
  · obtain ⟨a, tail, he, ha, htail, -⟩ := Utf8.ofChar_wide hc
    rw [weight_wide, he]
    · rw [List.length_cons]
      omega
    · rw [he]
      exact List.forall_mem_cons.mpr ⟨by grind, fun b hb => (htail b hb).1⟩
  · have hlt : c.toNat = 11 ∨ c.toNat = 12 := by
      have hne (k : Char) (hk : c ≠ k) : c.toNat ≠ k.toNat := fun he => hk (Char.toNat_inj.mp he)
      simp only [blanks, List.mem_cons, List.not_mem_nil, or_false, not_or] at hb
      have h32 : c.toNat ≠ 32 := hne ' ' hb.1
      have h9 : c.toNat ≠ 9 := hne '\t' hb.2.1
      have h13 : c.toNat ≠ 13 := hne '\r' hb.2.2
      have h10 : c.toNat ≠ 10 := hne '\n' hn
      simp only [Unicode.isBlank, Bool.or_eq_true, Bool.and_eq_true, decide_eq_true_eq,
        beq_iff_eq] at h
      omega
    rw [Utf8.ofChar_ascii (Nat.lt_of_not_le hc)]
    rcases hlt with he | he <;> rw [he] <;> decide

theorem isBlank_of_mem {c : Char} (h : c ∈ blanks) : Unicode.isBlank c = true := by
  simp only [blanks, List.mem_cons, List.not_mem_nil, or_false] at h
  rcases h with rfl | rfl | rfl <;> decide

/-- A character weighs no less in a definition than in a line, and more where the two differ. -/
theorem heft_spoken_le {s : State} {c : Char} {rest : List Char} (hs : s.Proper)
    (hnul : c ≠ '\x00') (newline : s = .bare → c ≠ '\n')
    (crlf : c = '\r' → rest.head? ≠ some '\n') :
    heft (s.spoken c) + (!s.agrees c rest).toNat ≤ heft (s.added c) := by
  have hcrlf : (decide (c = '\r') && decide (rest.head? = some '\n')) = false := by
    by_cases hc : c = '\r'
    · simp [hc, crlf hc]
    · simp [hc]
  rcases hs with rfl | rfl | rfl | rfl | rfl
  · by_cases hblank : c ∈ blanks
    · simp [State.spoken, State.added, State.agrees, hnul, hcrlf, hblank, isBlank_of_mem hblank]
    · have hline := newline rfl
      rcases kinds c with h | ⟨rfl, h⟩ | h | h
      · have hlt := heft_blank h.1 hblank hline
        simp [State.spoken, State.added, State.agrees, hnul, hcrlf, hblank, hline, h]
        omega
      · simp [State.spoken, State.added, State.agrees, h]
      · simp [State.spoken, State.added, State.agrees, hnul, hcrlf, h]
      · simp [State.spoken, State.added, State.agrees, hnul, hcrlf, hblank, h]
  · simp [State.spoken, State.added, State.agrees, hnul, hcrlf]
  · simp [State.spoken, State.added, State.agrees, hnul, hcrlf]
  · by_cases hline : c = '\n'
    · simp [State.spoken, State.added, State.agrees, hline, heft_newline]
    · simp [State.spoken, State.added, State.agrees, hnul, hcrlf, hline]
  · by_cases hline : c = '\n'
    · subst hline
      simp [State.spoken, State.added, State.agrees, heft_backslash, heft_newline]
    by_cases hsign : c = '$' ∨ c = '`'
    · rcases hsign with rfl | rfl
      all_goals simp [State.spoken, State.added, State.agrees, heft_backslash, Int.add_comm]
    · simp only [not_or] at hsign
      by_cases hkept : c = '\\' ∨ c = '"'
      · rcases hkept with rfl | rfl <;>
          simp [State.spoken, State.added, State.agrees]
      · simp only [not_or] at hkept
        simp [State.spoken, State.added, State.agrees, hnul, hcrlf, hline, hsign, hkept]

/-- The text that a walk has gathered. -/
def total (g : Line.Gathering) : Bytes := g.words.flatten ++ g.word.getD []

theorem total_heard {g next : Line.Gathering} {c : Char} (h : Line.Heard g c next) :
    total next = total g ++ Utf8.encode (g.quoting.reader.spoken c) := by
  by_cases hc : g.quoting.reader = .bare ∧ c ∈ blanks
  · obtain ⟨hword, hwords⟩ := h.blank hc.1 hc.2
    have hspoken : g.quoting.reader.spoken c = [] := by simp [hc.1, State.spoken, hc.2]
    rw [total, hword, hwords, hspoken, total]
    cases g.word <;> simp
  · obtain ⟨hword, hwords⟩ := h.text hc
    rw [total, hword, hwords, total]
    simp

theorem flatten_finish {g : Line.Gathering} (h : g.quoting.reader.isDone = true) :
    g.finish.flatten = total g := by
  have hq : g.quoting ≠ .escaped false := by
    intro he
    simp [he, Line.Quoting.reader, State.isDone] at h
  rw [Line.Gathering.finish, if_neg hq, total]
  cases g.word <;> simp

/-- Where a text is left, the words that the walk ends with weigh no more than what a definition
makes of it, and less if the text is not taken alike. -/
def Outweighed (g last : Line.Gathering) (cs : List Char) : Prop :=
  weight last.finish.flatten + (!agreesFrom g.quoting.reader cs).toNat ≤
    weight (total g) + heft (contents g.quoting.reader cs)

theorem outweighed_nil {g : Line.Gathering} (h : g.quoting.reader.isDone = true) :
    Outweighed g g [] := by
  have hne : g.quoting.reader ≠ .escape none := by
    intro he
    rw [he] at h
    cases h
  simp [Outweighed, flatten_finish h, contents, agreesFrom, hne]

/-- One character more. -/
theorem outweighed_char {g next last : Line.Gathering} {c : Char} {cs : List Char}
    (hnul : c ≠ '\x00') (crlf : c = '\r' → cs.head? ≠ some '\n') (h : Line.Heard g c next)
    (ih : Outweighed next last cs) : Outweighed g last (c :: cs) := by
  have hunit := heft_spoken_le g.quoting.proper_reader hnul h.newline crlf
  have hsplit : (!agreesFrom g.quoting.reader (c :: cs)).toNat ≤
      (!g.quoting.reader.agrees c cs).toNat +
        (!agreesFrom (g.quoting.reader.next c) cs).toNat := by
    rw [agreesFrom]
    cases g.quoting.reader.agrees c cs <;> cases agreesFrom (g.quoting.reader.next c) cs <;> decide
  have hheard : weight (total next) = weight (total g) + heft (g.quoting.reader.spoken c) := by
    rw [total_heard h, weight_append]
    rfl
  rw [Outweighed, h.reader, hheard] at ih
  rw [Outweighed, contents, heft_append]
  omega

theorem toNat_not_le (p : Bool) : (!p).toNat ≤ 1 := by cases p <;> decide

/-- A carriage return before a newline, which is not part of a line. -/
theorem outweighed_return {g last : Line.Gathering} {cs : List Char}
    (hne : g.quoting.reader ≠ .bare) (ih : Outweighed g last ('\n' :: cs)) :
    Outweighed g last ('\r' :: '\n' :: cs) := by
  have hpen := toNat_not_le (agreesFrom g.quoting.reader ('\r' :: '\n' :: cs))
  rw [Outweighed] at ih ⊢
  rcases g.quoting.proper_reader.resolve_left hne with hq | hq | hq | hq
  all_goals rw [hq] at ih hpen ⊢
  · have hkept : contents (.quote '\'') ('\r' :: '\n' :: cs) =
        '\r' :: contents (.quote '\'') ('\n' :: cs) := rfl
    rw [hkept, heft_cr]
    omega
  · have hkept : contents (.quote '"') ('\r' :: '\n' :: cs) =
        '\r' :: contents (.quote '"') ('\n' :: cs) := rfl
    rw [hkept, heft_cr]
    omega
  · -- The newline is escaped in a line, the carriage return in a definition.
    have hkept : contents (.escape none) ('\r' :: '\n' :: cs) = '\r' :: contents .bare cs := rfl
    have hline : contents (.escape none) ('\n' :: cs) = '\n' :: contents .bare cs := rfl
    have hbad : agreesFrom (.escape none) ('\n' :: cs) = false := rfl
    rw [hline, hbad, heft_newline] at ih
    rw [hkept, heft_cr]
    simp only [Bool.not_false, Bool.toNat_true] at ih
    omega
  · have hkept : contents (.escape (some '"')) ('\r' :: '\n' :: cs) =
        '\\' :: '\r' :: contents (.quote '"') ('\n' :: cs) := rfl
    have hline : contents (.escape (some '"')) ('\n' :: cs) =
        '\\' :: contents (.quote '"') ('\n' :: cs) := rfl
    rw [hline, heft_backslash] at ih
    rw [hkept, heft_backslash, heft_cr]
    omega

/-- A line break with the backslash that escapes it in a line, as a definition takes them. -/
structure IsBreak (brk : List Char) : Prop where
  after {s : State} (hs : s = .bare ∨ s = .quote '\'' ∨ s = .quote '"') (cs : List Char) :
    s.after (brk ++ cs) = s.after cs
  bare (cs : List Char) : 1 + heft (contents .bare cs) ≤ heft (contents .bare (brk ++ cs))
  double (cs : List Char) :
    1 + heft (contents (.quote '"') cs) ≤ heft (contents (.quote '"') (brk ++ cs))
  single (cs : List Char) : 2 + heft (contents (.quote '\'') cs) +
      (!agreesFrom (.quote '\'') (brk ++ cs)).toNat ≤
    heft (contents (.quote '\'') (brk ++ cs)) + (!agreesFrom (.quote '\'') cs).toNat

theorem isBreak_newline : IsBreak ['\\', '\n'] where
  after hs cs := by rcases hs with rfl | rfl | rfl <;> rfl
  bare cs := by
    have hkept : contents .bare ('\\' :: '\n' :: cs) = '\n' :: contents .bare cs := rfl
    rw [List.cons_append, List.singleton_append, hkept, heft_newline]
  double cs := by
    have hkept : contents (.quote '"') ('\\' :: '\n' :: cs) =
        '\\' :: '\n' :: contents (.quote '"') cs := rfl
    rw [List.cons_append, List.singleton_append, hkept, heft_backslash, heft_newline]
    omega
  single cs := by
    have hkept : contents (.quote '\'') ('\\' :: '\n' :: cs) =
        '\\' :: '\n' :: contents (.quote '\'') cs := rfl
    have hsame : agreesFrom (.quote '\'') ('\\' :: '\n' :: cs) =
        agreesFrom (.quote '\'') cs := rfl
    rw [List.cons_append, List.singleton_append, hkept, hsame, heft_backslash, heft_newline]
    omega

theorem isBreak_return : IsBreak ['\\', '\r', '\n'] where
  after hs cs := by rcases hs with rfl | rfl | rfl <;> rfl
  bare cs := by
    have hkept : contents .bare ('\\' :: '\r' :: '\n' :: cs) = '\r' :: contents .bare cs := rfl
    rw [List.cons_append, List.cons_append, List.singleton_append, hkept, heft_cr]
  double cs := by
    have hkept : contents (.quote '"') ('\\' :: '\r' :: '\n' :: cs) =
        '\\' :: '\r' :: '\n' :: contents (.quote '"') cs := rfl
    rw [List.cons_append, List.cons_append, List.singleton_append, hkept, heft_backslash, heft_cr,
      heft_newline]
    omega
  single cs := by
    have hkept : contents (.quote '\'') ('\\' :: '\r' :: '\n' :: cs) =
        '\\' :: '\r' :: '\n' :: contents (.quote '\'') cs := rfl
    have hpen := toNat_not_le (agreesFrom (.quote '\'') ('\\' :: '\r' :: '\n' :: cs))
    rw [List.cons_append, List.cons_append, List.singleton_append, hkept, heft_backslash, heft_cr,
      heft_newline]
    omega

/-- An escaped line break, which single quotes keep in a line too. -/
theorem outweighed_break {g last : Line.Gathering} {brk cs : List Char} {ms : List Line.Mark}
    (hb : IsBreak brk) (hr : g.run (.joint :: ms) = some last)
    (hdone : (g.quoting.reader.after (brk ++ cs)).isDone = true)
    (ih : ∀ {next : Line.Gathering}, (∀ d, next.quoting ≠ .escaped d) → next.run ms = some last →
      (next.quoting.reader.after cs).isDone = true → Outweighed next last cs) :
    Outweighed g last (brk ++ cs) := by
  obtain ⟨next, hrun, hreader, hescape, hwords, hcases⟩ := Line.exists_joint hr
  have hplace : g.quoting.reader = .bare ∨ g.quoting.reader = .quote '\'' ∨
      g.quoting.reader = .quote '"' := hcases.imp And.left (Or.imp And.left And.left)
  have hrest : Outweighed next last cs := by
    refine ih hescape hrun ?_
    rwa [hreader, ← hb.after hplace]
  have hpen := toNat_not_le (agreesFrom g.quoting.reader (brk ++ cs))
  rw [Outweighed, hreader] at hrest
  rw [Outweighed]
  rcases hcases with ⟨hq, hword⟩ | ⟨hq, hword⟩ | ⟨hq, hword⟩
  all_goals
    rw [hq] at hrest hpen ⊢
    simp only [total, hwords, hword, Option.getD_some, ← List.append_assoc] at hrest ⊢
  · have hgain := hb.bare cs
    omega
  · have hgain := hb.single cs
    rw [weight_append _ [92, 10], weight_joint] at hrest
    omega
  · have hgain := hb.double cs
    omega

/-- A text weighs no less in a definition than in a line, and more where the two differ. -/
theorem outweighed_run {cs : List Char} {ab : Bool} {g last : Line.Gathering} (hnul : '\x00' ∉ cs)
    (hab : ∀ d, g.quoting = .escaped d → ab = true)
    (hr : g.run ((Line.signs ab cs).flatMap Line.Sign.marks) = some last)
    (hdone : (g.quoting.reader.after cs).isDone = true) : Outweighed g last cs := by
  fun_induction Line.signs ab cs generalizing g with
  | case1 ab =>
    cases hr
    exact outweighed_nil hdone
  | case2 ab cs ih =>
    simp only [List.mem_cons, not_or] at hnul
    have hne : g.quoting.reader ≠ .bare := by
      intro hq
      obtain ⟨next, hnext, -⟩ := Line.exists_heard (c := '\n') (by
        simpa [Line.signs, Line.Sign.marks] using hr)
      exact hnext.newline hq rfl
    refine outweighed_return hne (ih (by simpa using hnul.2) hab hr ?_)
    rcases g.quoting.proper_reader.resolve_left hne with hq | hq | hq | hq
    all_goals
      rw [hq] at hdone ⊢
      exact hdone
  | case4 ab cs hab' ih =>
    simp only [List.mem_cons, not_or] at hnul
    change Outweighed g last (['\\', '\n'] ++ cs)
    rw [List.flatMap_cons, Line.Sign.marks, List.singleton_append] at hr
    exact outweighed_break isBreak_newline hr hdone fun hescape =>
      ih hnul.2.2 fun d hd => absurd hd (hescape d)
  | case6 ab cs hab' ih =>
    simp only [List.mem_cons, not_or] at hnul
    change Outweighed g last (['\\', '\r', '\n'] ++ cs)
    rw [List.flatMap_cons, Line.Sign.marks, List.singleton_append] at hr
    exact outweighed_break isBreak_return hr hdone fun hescape =>
      ih hnul.2.2.2 fun d hd => absurd hd (hescape d)
  | case3 cs ih | case5 cs ih =>
    simp only [List.mem_cons, not_or] at hnul
    obtain ⟨next, hnext, hrun⟩ := Line.exists_heard hr
    refine outweighed_char (by decide) (by simp) hnext (ih (by simpa using hnul.2) (by simp) hrun ?_)
    rw [hnext.reader]
    exact hdone
  | case7 ab c cs cr nl crnl ih =>
    simp only [List.mem_cons, not_or] at hnul
    obtain ⟨next, hnext, hrun⟩ := Line.exists_heard hr
    refine outweighed_char (Ne.symm hnul.1) ?_ hnext (ih hnul.2 ?_ hrun ?_)
    · intro hc he
      obtain ⟨rest, rfl⟩ := List.head?_eq_some_iff.mp he
      exact cr rest hc rfl
    · exact fun d hd => beq_iff_eq.mpr (hnext.escape hd)
    · rw [hnext.reader]
      exact hdone

/-! NUL is kept by the splitter and never by a line. -/

theorem total_step {g next : Line.Gathering} {m : Line.Mark} (h : g.step? m = some next) :
    total next = total g ∨ total next = total g ++ g.quoting.said m := by
  have hadd : total (g.add m) = total g ++ g.quoting.said m := by simp [total, Line.Gathering.add]
  unfold Line.Gathering.step? at h
  split at h
  · split at h
    · cases h
    · split at h
      · cases h
        left
        cases hw : g.word <;> simp [total, hw]
      · cases h
        exact .inr hadd
  · cases h
    exact .inl rfl
  all_goals first
    | cases h; exact .inr hadd
    | cases h

/-- NUL is said only where it stands. -/
theorem eq_byte_of_nul_mem_said {q : Line.Quoting} {m : Line.Mark} (h : 0 ∈ q.said m) :
    m = .byte 0 := by
  have kept {p : Prop} [Decidable p] {b : UInt8} (hin : 0 ∈ if p then [] else [b]) : b = 0 := by
    split at hin
    · cases hin
    · exact (List.mem_singleton.mp hin).symm
  unfold Line.Quoting.said at h
  split at h
  · rw [kept h]
  · rw [kept h]
  · exact absurd h (by decide)
  · rw [kept h]
  · split at h
    · cases h
    · split at h <;> simp_all
  all_goals cases h

theorem nul_not_mem_finish {g last : Line.Gathering} {ms : List Line.Mark}
    (hr : g.run ms = some last) (hg : 0 ∉ total g) (hms : .byte 0 ∉ ms) :
    0 ∉ last.finish.flatten := by
  induction ms generalizing g with
  | nil =>
    cases hr
    simp only [total, List.mem_append, not_or] at hg
    simp only [Line.Gathering.finish, List.flatten_append, List.mem_append, not_or]
    refine ⟨hg.1, ?_⟩
    split
    · simpa using hg.2
    · cases hw : last.word with
      | none => simp
      | some t => simpa [hw] using hg.2
  | cons m ms ih =>
    simp only [List.mem_cons, not_or] at hms
    obtain ⟨next, hnext, hrun⟩ := Option.bind_eq_some_iff.mp hr
    have hsaid : 0 ∉ g.quoting.said m := fun hin => hms.1 (eq_byte_of_nul_mem_said hin).symm
    refine ih hrun ?_ hms.2
    rcases total_step hnext with he | he <;> rw [he]
    · exact hg
    · simp [hg, hsaid]

theorem nul_not_mem_marks (ab : Bool) (s : Bytes) : .byte 0 ∉ Line.marks ab s := by
  fun_induction Line.marks ab s <;> simp_all [eq_comm]

/-! Where the two agree they find the same words, but for empty ones. -/

/-- The splitter and the walk have read the same. -/
inductive Aligned : Partial → Line.Gathering → Prop
  | between {g : Line.Gathering} (reader : g.quoting.reader = .bare) (word : g.word = none) :
    Aligned .empty g
  | within {p : Partial} {g : Line.Gathering} (state : p.state = g.quoting.reader)
    (word : g.word = some (Utf8.encode p.text.reverse))
    (shown : p.state = .bare → p.text ≠ [] ∨ p.quoted = true) : Aligned p g

theorem spoken_eq_added {s : State} {c : Char} {rest : List Char} (hs : s.Proper)
    (newline : s = .bare → c ≠ '\n') (h : s.agrees c rest = true) : s.spoken c = s.added c := by
  obtain ⟨-, h⟩ := Bool.and_eq_true_iff.mp h
  rcases hs with rfl | rfl | rfl | rfl | rfl
  · have hline := newline rfl
    by_cases hblank : c ∈ blanks
    · simp [State.spoken, State.added, hblank, isBlank_of_mem hblank]
    · have hnot : Unicode.isBlank c = false := by simpa [hblank, hline] using h
      simp [State.spoken, State.added, hblank, hnot]
  · rfl
  · rfl
  · have hline : c ≠ '\n' := by simpa using h
    simp [State.spoken, State.added, hline]
  · simp only [State.spoken, State.added]
    grind

/-- The lexer makes no difference between the place before a word and one in it. -/
theorem reader_ne_between (q : Line.Quoting) : q.reader ≠ .between := by
  intro he
  have hproper := q.proper_reader
  rw [he] at hproper
  simp [State.Proper] at hproper

namespace Aligned
variable {p : Partial} {g next : Line.Gathering} {c : Char}

theorem sound (h : Aligned p g) : p.Sound := by
  cases h with
  | between => exact fun _ => rfl
  | within state => exact fun hp => absurd (state.symm.trans hp) (reader_ne_between _)

/-- What has been read in either, in either's terms. -/
theorem agree (h : Aligned p g) : p.state.next c = g.quoting.reader.next c ∧
    p.state.added c = g.quoting.reader.added c ∧
    g.word.getD [] = Utf8.encode p.text.reverse ∧
    (p.state = .between ∨ p.state = .bare → g.quoting.reader = .bare) ∧
    (p.state = .bare → p.text ≠ [] ∨ p.quoted = true) := by
  cases h with
  | between reader word =>
    rw [reader, word]
    exact ⟨rfl, rfl, rfl, fun _ => rfl, by simp [Partial.empty]⟩
  | within state word shown =>
    rw [← state, word]
    refine ⟨rfl, rfl, rfl, fun hp => hp.resolve_left fun hbetween => ?_, shown⟩
    exact reader_ne_between _ (state.symm.trans hbetween)

/-- A blank ends the word in both. -/
theorem step_blank (h : Aligned p g) (hn : Line.Heard g c next)
    (hq : g.quoting.reader = .bare) (hc : c ∈ blanks) :
    Aligned (step p c).1 next ∧ next.words =
      g.words ++ ((Words.step p c).2.map fun text => Utf8.encode text.reverse).toList := by
  obtain ⟨hword, hwords⟩ := hn.blank hq hc
  have hc := isBlank_of_mem hc
  have hreader : next.quoting.reader = .bare := by
    rw [hn.reader, hq]
    rcases kinds c with h | ⟨rfl, h⟩ | h | h <;> simp_all [State.next]
  cases h with
  | between reader word =>
    have hstep : Words.step .empty c = (.empty, none) := by simp [Words.step, Partial.empty, hc]
    rw [hstep]
    exact ⟨.between hreader hword, by simp [hwords, word]⟩
  | within state word shown =>
    rw [hq] at state
    have hshown : (!p.text.isEmpty || p.quoted) = true := by simpa using shown state
    have hstep : Words.step p c = (.empty, some p.text) := by simp [Words.step, state, hc, hshown]
    rw [hstep]
    exact ⟨.between hreader hword, by simp [hwords, word]⟩

theorem step {rest : List Char} (h : Aligned p g) (hn : Line.Heard g c next)
    (hagree : g.quoting.reader.agrees c rest = true) :
    Aligned (step p c).1 next ∧ next.words =
      g.words ++ ((Words.step p c).2.map fun text => Utf8.encode text.reverse).toList := by
  by_cases hblank : g.quoting.reader = .bare ∧ c ∈ blanks
  · exact h.step_blank hn hblank.1 hblank.2
  · obtain ⟨hword, hwords⟩ := hn.text hblank
    have hnot (hq : g.quoting.reader = .bare) : Unicode.isBlank c = false := by
      have hline := hn.newline hq
      have hout : c ∉ blanks := fun hc => hblank ⟨hq, hc⟩
      rw [hq] at hagree
      simpa [State.agrees, hout, hline] using (Bool.and_eq_true_iff.mp hagree).2
    have hadded := spoken_eq_added g.quoting.proper_reader hn.newline hagree
    obtain ⟨-, -, htext⟩ := step_spec h.sound c
    obtain ⟨hnext, hsame, hold, hbare, hshown⟩ := h.agree (c := c)
    obtain ⟨hnone, hstate, hshown⟩ := step_word hshown fun hp => hnot (hbare hp)
    rw [hnone] at htext ⊢
    refine ⟨.within ?_ ?_ hshown, by simp [hwords]⟩
    · rw [hstate, hnext, hn.reader]
    · rw [hword, hold, hadded, ← hsame, ← Utf8.encode_append, ← htext]
      simp

end Aligned

/-- Where a text is left, the splitter finds the words that the walk will have gathered, but for the
empty ones. -/
def Splits (p : Partial) (g last : Line.Gathering) (cs : List Char) : Prop :=
  ∃ ws, go p cs = .ok ws ∧ last.finish.filter (· ≠ []) = g.words.filter (· ≠ []) ++ ws

section Splits
variable {p : Partial} {g last : Line.Gathering} {cs : List Char}

theorem splits_nil (h : Aligned p g) (hagree : agreesFrom g.quoting.reader [] = true)
    (hend : g.quoting.canEnd = true) : Splits p g g [] := by
  have hq : ∃ w sp, g.quoting = .bare w sp := by
    cases hq : g.quoting with
    | bare w sp => exact ⟨w, sp, rfl⟩
    | escaped d =>
      rw [hq] at hend hagree
      cases d
      · cases hagree
      · cases hend
    | _ =>
      rw [hq] at hend
      cases hend
  obtain ⟨w, sp, hq⟩ := hq
  have hfinish : g.finish = g.words ++ g.word.toList := by
    rw [Line.Gathering.finish, if_neg (by simp [hq])]
  cases h with
  | between reader word => exact ⟨[], rfl, by simp [hfinish, word]⟩
  | within state word shown =>
    have hp : p.state = .bare := by rw [state, hq]; rfl
    refine ⟨keep p.text [], by simp [go, finish, hp, Except.map], ?_⟩
    rw [hfinish, word, keep_eq, List.filter_append, List.append_nil]
    rfl

/-- One character more. -/
theorem splits_cons {c : Char} {ms : List Line.Mark} (h : Aligned p g)
    (hagree : agreesFrom g.quoting.reader (c :: cs) = true)
    (hr : g.run ((Bytes.ofChar c).map .byte ++ ms) = some last)
    (ih : ∀ {p next}, Aligned p next → (∀ d, next.quoting = .escaped d → c = '\\') →
      agreesFrom next.quoting.reader cs = true → next.run ms = some last → Splits p next last cs) :
    Splits p g last (c :: cs) := by
  obtain ⟨hc, hrest⟩ := Bool.and_eq_true_iff.mp hagree
  obtain ⟨next, hnext, hrun⟩ := Line.exists_heard hr
  obtain ⟨halign, hwords⟩ := h.step hnext hc
  obtain ⟨ws, hgo, hfilter⟩ := ih halign (fun d => hnext.escape) (by rwa [hnext.reader]) hrun
  refine ⟨_, go_cons_eq_ok_iff.mpr ⟨ws, hgo, rfl⟩, ?_⟩
  rw [hfilter, hwords]
  cases (step p c).2 with
  | none => simp
  | some text =>
    rw [Option.elim_some, keep_eq, List.filter_append, List.append_assoc]
    rfl

/-- An escaped line break is taken alike only in single quotes, where both keep it and the backslash
before it. -/
theorem splits_break {ms : List Line.Mark} (h : Aligned p g)
    (hagree : agreesFrom g.quoting.reader ('\\' :: '\n' :: cs) = true)
    (hr : g.run (.joint :: ms) = some last)
    (ih : ∀ {p next}, Aligned p next → (∀ d, next.quoting ≠ .escaped d) →
      agreesFrom next.quoting.reader cs = true → next.run ms = some last → Splits p next last cs) :
    Splits p g last ('\\' :: '\n' :: cs) := by
  obtain ⟨next, hrun, hreader, hescape, hwords, hcases⟩ := Line.exists_joint hr
  rcases hcases with ⟨hq, -⟩ | ⟨hq, hword⟩ | ⟨hq, -⟩
  · rw [hq] at hagree
    simp [agreesFrom, State.agrees, State.next] at hagree
  · cases h with
    | between reader =>
      rw [hq] at reader
      cases reader
    | within state word shown =>
      rw [hq] at state
      have halign : Aligned ⟨.quote '\'', '\n' :: '\\' :: p.text, true⟩ next := by
        refine .within (hreader.trans hq).symm ?_ (fun he => by cases he)
        rw [hword, word]
        simp [Utf8.encode_append]
        rfl
      have hgo : go p ('\\' :: '\n' :: cs) =
          go ⟨.quote '\'', '\n' :: '\\' :: p.text, true⟩ cs := by
        simp [go, Words.step, state]
      rw [Splits, hgo, ← hwords]
      refine ih halign hescape ?_ hrun
      rw [hq] at hagree
      rw [hreader, hq]
      exact hagree
  · rw [hq] at hagree
    simp [agreesFrom, State.agrees, State.next] at hagree

theorem splits_run {ab : Bool} (h : Aligned p g) (hab : ∀ d, g.quoting = .escaped d → ab = true)
    (hagree : agreesFrom g.quoting.reader cs = true)
    (hr : g.run ((Line.signs ab cs).flatMap Line.Sign.marks) = some last)
    (hend : last.quoting.canEnd = true) : Splits p g last cs := by
  fun_induction Line.signs ab cs generalizing p g with
  | case1 ab =>
    cases hr
    exact splits_nil h hagree hend
  | case2 ab cs ih => simp [agreesFrom, State.agrees] at hagree
  | case3 cs ih | case5 cs ih =>
    exact splits_cons h hagree hr fun h' _ ha hr' => ih h' (by simp) ha hr'
  | case4 ab cs hab' ih =>
    exact splits_break h hagree hr fun h' he ha hr' => ih h' (fun d hd => absurd hd (he d)) ha hr'
  | case6 ab cs hab' ih => simp [agreesFrom, State.agrees] at hagree
  | case7 ab c cs cr nl crnl ih =>
    exact splits_cons h hagree hr fun h' he ha hr' => ih h' (fun d hd => by simp [he d hd]) ha hr'

end Splits

theorem nul_not_mem_of_agrees {s : State} {cs : List Char} (h : agreesFrom s cs = true) :
    '\x00' ∉ cs := by
  induction cs generalizing s with
  | nil => simp
  | cons c cs ih =>
    obtain ⟨hc, hrest⟩ := Bool.and_eq_true_iff.mp h
    simp only [List.mem_cons, not_or]
    refine ⟨?_, ih hrest⟩
    rintro rfl
    simp [State.agrees] at hc

theorem agreesFrom_between (cs : List Char) : agreesFrom .between cs = agreesFrom .bare cs := by
  cases cs <;> rfl

end Words

section
variable {line : Bytes} {argv : List Bytes} {files : Redirections}

/-- The walk over an accepted line, character by character. -/
theorem Line.signs_of_parse (command : isOneCommand line = true) (unmarked : Unmarked line)
    (parsed : parse line = .ok (.plain argv files)) (nul : '\x00' ∉ Utf8.chars line) :
    ∃ last : Gathering, Gathering.run ⟨.bare false false, none, []⟩
      ((signs false (Utf8.chars line)).flatMap Sign.marks) = some last ∧
      last.quoting.canEnd = true ∧ last.finish = argv := by
  obtain ⟨valid, -, last, hrun, hend, hfinish⟩ := words_of_parse command unmarked parsed
  refine ⟨last, ?_, hend, hfinish⟩
  have hin {c : Char} (hc : c ∈ Utf8.chars line) : Bytes.ofChar c <:+: line := by
    rw [← Utf8.encode_chars valid]
    obtain ⟨before, after, he⟩ := List.append_of_mem hc
    rw [he]
    exact ⟨Utf8.encode before, Utf8.encode after, by simp [Utf8.encode]⟩
  rw [← marks_encode, Utf8.encode_chars valid, hrun]
  refine fun c hc => ⟨?_, ?_, ?_⟩
  · rintro rfl
    exact nul hc
  · rintro rfl
    exact unmarked.1 (hin hc)
  · rintro rfl
    exact unmarked.2 (hin hc)

/-- A definition that is taken as a line would be splits into the words of the line, but for the
empty ones. -/
theorem Words.split_of_agrees (command : Line.isOneCommand line = true)
    (unmarked : Line.Unmarked line) (parsed : Line.parse line = .ok (.plain argv files))
    (hagree : agrees line = true) : split line = .ok (argv.filter (· ≠ [])) := by
  rw [agrees, agreesFrom_between] at hagree
  obtain ⟨last, hrun, hend, hfinish⟩ :=
    Line.signs_of_parse command unmarked parsed (nul_not_mem_of_agrees hagree)
  have hstart : Aligned .empty ⟨.bare false false, none, []⟩ := .between rfl rfl
  obtain ⟨ws, hgo, hfilter⟩ := splits_run hstart (by simp) hagree hrun hend
  rw [split, hgo, ← hfinish, hfilter]
  rfl

/-- A definition that is not taken as a line would be does not split into the words of the line. -/
theorem Words.agrees_of_split (command : Line.isOneCommand line = true)
    (unmarked : Line.Unmarked line) (parsed : Line.parse line = .ok (.plain argv files))
    (h : split line = .ok argv) : agrees line = true := by
  obtain ⟨hdone, hflat⟩ := go_ok (fun _ => rfl) h
  have hcontents : contents .between (Utf8.chars line) = contents .bare (Utf8.chars line) :=
    Like.contents_eq (.inr ⟨rfl, rfl⟩) _
  have hafter : (State.after .between (Utf8.chars line)).isDone =
      (State.after .bare (Utf8.chars line)).isDone := Like.isDone_after (.inr ⟨rfl, rfl⟩) _
  change argv.flatten = Utf8.encode (contents .between (Utf8.chars line)) at hflat
  change (State.after .between (Utf8.chars line)).isDone = true at hdone
  rw [hcontents] at hflat
  rw [hafter] at hdone
  by_cases hnul : '\x00' ∈ Utf8.chars line
  · obtain ⟨-, -, last, hrun, -, rfl⟩ := Line.words_of_parse command unmarked parsed
    refine absurd ?_ (nul_not_mem_finish hrun (by simp [total]) (nul_not_mem_marks false line))
    rw [hflat]
    exact List.mem_flatMap.mpr ⟨_, nul_mem_contents (.inl rfl) hnul, by decide⟩
  · obtain ⟨last, hrun, -, rfl⟩ := Line.signs_of_parse command unmarked parsed hnul
    have hweigh := outweighed_run hnul (by simp) hrun hdone
    by_contra hagree
    rw [agrees, agreesFrom_between, Bool.not_eq_true] at hagree
    change weight _ + (!agreesFrom .bare (Utf8.chars line)).toNat ≤
      0 + weight (Utf8.encode (contents .bare (Utf8.chars line))) at hweigh
    rw [← hflat, hagree] at hweigh
    simp only [Bool.not_false, Bool.toNat_true] at hweigh
    omega

/-- The words of a definition are those of the line with its text exactly if none of them is empty
and every character is taken as it would be in a line. -/
theorem Tree.simple_eq_parse_iff (command : Line.isOneCommand line = true)
    (unmarked : Line.Unmarked line) (parsed : Line.parse line = .ok (.plain argv files)) :
    Tree.simple line = .ok argv ↔ [] ∉ argv ∧ Words.agrees line = true := by
  obtain ⟨-, hne, -⟩ := Line.words_of_parse command unmarked parsed
  constructor
  · intro h
    have hsplit : Words.split line = .ok argv := by
      simp only [Tree.simple] at h
      split at h
      · cases h
      · cases h
      · next he =>
        cases h
        exact he
    exact ⟨Words.nil_not_mem_go hsplit, Words.agrees_of_split command unmarked parsed hsplit⟩
  · rintro ⟨hempty, hagree⟩
    have hsplit := Words.split_of_agrees command unmarked parsed hagree
    rw [List.filter_eq_self.mpr] at hsplit
    · simp only [Tree.simple, hsplit]
    · intro word hword
      have hword : word ≠ [] := by
        rintro rfl
        exact hempty hword
      simpa using hword

end

/-- A backslash before a dollar sign in double quotes. -/
example : Line.read? "echo \"\\$5\"" = some (.plain ["echo", "$5"]) ∧
    Tree.simple "echo \"\\$5\"" = .ok ["echo", "\\$5"] :=
  ⟨by decide +kernel, by cbv⟩

theorem Tree.simple_eq_parse_iff_quoted :
    Line.parse "greet 'a  b' \"\\\"\"c\\ d" = .ok (.plain ["greet", "a  b", "\"c d"]) ∧
      Tree.simple "greet 'a  b' \"\\\"\"c\\ d" = .ok ["greet", "a  b", "\"c d"] := by
  have parsed : Line.parse "greet 'a  b' \"\\\"\"c\\ d" =
      .ok (.plain ["greet", "a  b", "\"c d"]) := Line.parse_eq_ok_iff.mpr (by decide +kernel)
  have unmarked : Line.Unmarked "greet 'a  b' \"\\\"\"c\\ d" := by
    constructor <;> decide
  exact ⟨parsed, (Tree.simple_eq_parse_iff (by decide) unmarked parsed).mpr
    ⟨by decide, by cbv⟩⟩

end CommandShell
