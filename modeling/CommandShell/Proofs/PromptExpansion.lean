import CommandShell.Proofs.CleanPath
import CommandShell.Prompt

/-! Expanding a prompt goes once through the template. What stands in for an escape is not looked at
again, a template can be cut wherever no escape is cut, and doubled backslashes are undone. A directory
can be read off its shortened form. -/
namespace CommandShell.Prompt

/-- A byte behind a backslash is taken together with it, and at the end one backslash is left alone. -/
def endsLone : Bytes → Bool
  | [] => false
  | [b] => b == 92
  | b :: c :: template => if b = 92 then endsLone template else endsLone (c :: template)

/-- A text in which every backslash is written twice. -/
def doubled (s : Bytes) : Bytes := s.flatMap fun b => if b = 92 then [92, 92] else [b]

/-- Home as it stands in front of the directories below it. -/
def homePrefix (home : Bytes) : Bytes := if Bytes.endsWith home "/" then home.dropLast else home

/-- The directory that is shown as a text: a tilde in front of it stands for home. -/
def shownDirectory (home text : Bytes) : Bytes :=
  if Bytes.startsWith text "~" then homePrefix home ++ text.drop 1 else text

variable (facts : Facts)

theorem expand_cons {b : UInt8} (hb : b ≠ 92) (s : Bytes) : expand facts (b :: s) = b :: expand facts s := by
  cases s with
  | nil => rfl
  | cons c s => rw [expand, if_neg hb]

theorem expand_escape (c : UInt8) (s : Bytes) :
    expand facts (92 :: c :: s) = escape facts c ++ expand facts s := by
  rw [expand, if_pos rfl]

theorem expand_append {a : Bytes} (h : endsLone a = false) (b : Bytes) :
    expand facts (a ++ b) = expand facts a ++ expand facts b := by
  fun_induction endsLone a with
  | case1 => rfl
  | case2 first =>
    have hfirst : first ≠ 92 := by simpa using h
    rw [List.singleton_append, expand_cons facts hfirst]
    rfl
  | case3 c a ih =>
    rw [List.cons_append, List.cons_append, expand_escape, expand_escape, ih h, List.append_assoc]
  | case4 first c a hfirst ih =>
    rw [List.cons_append, expand_cons facts hfirst, ih h, expand_cons facts hfirst, List.cons_append]

theorem expand_doubled (s : Bytes) : expand facts (doubled s) = s := by
  induction s with
  | nil => rfl
  | cons b s ih =>
    rw [doubled, List.flatMap_cons, ← doubled]
    by_cases hb : b = 92
    · subst hb
      rw [if_pos rfl, List.cons_append, List.singleton_append, expand_escape, ih]
      rfl
    · rw [if_neg hb, List.singleton_append, expand_cons facts hb, ih]

/-- A directory is shown as it is, or with a tilde in the place of home. -/
theorem shortenHome_cases (dir home : Bytes) :
    shortenHome dir home = dir ∨
      ∃ rest, dir = homePrefix home ++ rest ∧ shortenHome dir home = 126 :: rest := by
  unfold shortenHome
  rw [← homePrefix]
  dsimp only
  split
  · exact .inl rfl
  · split
    · next heq => exact .inr ⟨[], by simpa using heq, rfl⟩
    · split
      · next hstart =>
        rw [Bytes.startsWith, List.isPrefixOf_iff_prefix] at hstart
        obtain ⟨rest, rfl⟩ := hstart
        refine .inr ⟨"/" ++ rest, List.append_assoc .., ?_⟩
        rw [List.append_assoc, List.drop_left]
        rfl
      · exact .inl rfl

theorem shownDirectory_tilde (home rest : Bytes) :
    shownDirectory home (126 :: rest) = homePrefix home ++ rest := rfl

theorem shownDirectory_shortenHome {dir : Bytes} (h : Path.isAbsolute dir = true) (home : Bytes) :
    shownDirectory home (shortenHome dir home) = dir := by
  rcases shortenHome_cases dir home with hsame | ⟨rest, hdir, htilde⟩
  · -- a rooted path does not begin with a tilde
    obtain ⟨rest, rfl⟩ := Path.isAbsolute_iff.mp h
    rw [hsame]
    rfl
  · rw [htilde, shownDirectory_tilde, hdir]

/-- Expansion goes once from left to right: cut anywhere but between a backslash and its byte, a template
expands to the expansions of its parts, whatever the facts are. Doubled backslashes give back any text.
Unpainted, what stands for a directory tells which one it is. -/
theorem expansion_is_one_pass (facts : Facts) :
    (∀ a b, endsLone a = false → expand facts (a ++ b) = expand facts a ++ expand facts b) ∧
      (∀ s, expand facts (doubled s) = s) ∧
      (facts.color = false → Path.isAbsolute facts.dir = true →
        shownDirectory facts.home (expand facts "\\w") = facts.dir) := by
  refine ⟨fun a b h => expand_append facts h b, expand_doubled facts, fun hcolor habs => ?_⟩
  have hescape : escape facts 119 = shortenHome facts.dir facts.home :=
    if_neg (Bool.eq_false_iff.mp hcolor)
  have hshown : expand facts "\\w" = escape facts 119 := List.append_nil _
  rw [hshown, hescape, shownDirectory_shortenHome habs]

/-- A name that looks like an escape, behind it a backslash and a letter that make none, and a template
that is cut inside an escape. -/
theorem expansion_is_one_pass_lookalike :
    let facts : Facts := { name := "\\w", dir := "/home/ann/src", home := "/home/ann/" }
    endsLone "\\s\\\\" = false ∧ expand facts ("\\s\\\\" ++ "w") = "\\w\\w" ∧
      expand facts "\\w" = "~/src" ∧ shownDirectory facts.home (expand facts "\\w") = "/home/ann/src" ∧
      expand facts ("\\" ++ "s") ≠ expand facts "\\" ++ expand facts "s" := by
  intro facts
  obtain ⟨happend, -, hdirectory⟩ := expansion_is_one_pass facts
  have hclosed : endsLone "\\s\\\\" = false := by decide
  exact ⟨hclosed, (happend _ "w" hclosed).trans (by decide), by decide, hdirectory rfl (by decide),
    by decide⟩

end CommandShell.Prompt
