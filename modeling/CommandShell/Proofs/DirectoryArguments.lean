import CommandShell.Proofs.EnvironmentCopy
import CommandShell.Proofs.ExecutionStep
import CommandShell.Sandbox
import Mathlib

/-! What cd makes of its arguments. The documentation knows help by its two names and takes any other
first word for a directory. Options are looked for in all words, though, so that some first words and
some words behind them are read in another way. -/
namespace CommandShell

namespace ChangeDirectory

/-! ### Words as options -/

/-- The word that ends the options. -/
def dashes : Bytes := "--"

/-- The words that are options, and what they say about help. -/
inductive Flag : Bytes → Bool → Prop
  | letters (n : Nat) : Flag (45 :: 104 :: List.replicate n 104) true
  | long {name : Bytes} (known : name = "help" ∨ name = "h") : Flag (45 :: 45 :: name) true
  | valued {name value : Bytes} {said : Bool} (known : name = "help" ∨ name = "h")
      (truth : truth? value = some said) : Flag (45 :: 45 :: (name ++ 61 :: value)) said

/-- Options one after the other, each of which says anew whether help is wanted. -/
inductive Flags : Bool → List Bytes → Bool → Prop
  | none (help : Bool) : Flags help [] help
  | more {help said after : Bool} {word : Bytes} {words : List Bytes} (first : Flag word said)
      (others : Flags said words after) : Flags help (word :: words) after

/-- A word that has no dash in front, or is nothing but one. -/
def Ordinary (word : Bytes) : Prop := word.head? ≠ some 45 ∨ word = "-"

/-- A word that looks like an option and is none. -/
def Unknown (word : Bytes) : Prop := ¬ Ordinary word ∧ word ≠ dashes ∧ ∀ said, ¬ Flag word said

/-- Words that begin with no option, known or unknown. -/
inductive Stops : List Bytes → Prop
  | none : Stops []
  | dashes (rest : List Bytes) : Stops (dashes :: rest)
  | word {word : Bytes} (ordinary : Ordinary word) (rest : List Bytes) : Stops (word :: rest)

/-- The two words that ask for help. -/
def AsksForHelp (word : Bytes) : Prop := word = "-h" ∨ word = "--help"

instance (word : Bytes) : Decidable (AsksForHelp word) := inferInstanceAs (Decidable (_ ∨ _))

/-- What the arguments ask for by the documentation. -/
def documented : List Bytes → Request
  | [] => .home
  | word :: _ => if AsksForHelp word then .help else .to word

/-- The arguments that are understood as documented. -/
inductive Plainly : List Bytes → Prop
  | none : Plainly []
  /-- The first word is no option, and then no other one is. -/
  | directory {word : Bytes} (start : word ≠ dashes) (noFlag : ∀ said, ¬ Flag word said)
      (rest : List Bytes) : Plainly (word :: rest)
  /-- Help is asked for, all options behind that are known, and the last one does not take it back. -/
  | help {word : Bytes} {flags rest : List Bytes} (asks : AsksForHelp word)
      (others : Flags true flags true) (stops : Stops rest) : Plainly (word :: flags ++ rest)
  /-- The first word is another option, and an unknown one comes behind it. -/
  | refused {word bad : Bytes} {flags : List Bytes} {said after : Bool} (silent : ¬ AsksForHelp word)
      (first : Flag word said) (others : Flags said flags after) (unknown : Unknown bad)
      (rest : List Bytes) : Plainly (word :: flags ++ bad :: rest)
  /-- The first word is another option, and comes again behind the end of the options. -/
  | again {word : Bytes} {flags : List Bytes} {said : Bool} (silent : ¬ AsksForHelp word)
      (first : Flag word said) (others : Flags said flags false) (rest : List Bytes) :
      Plainly (word :: flags ++ dashes :: word :: rest)
  | dashes (rest : List Bytes) : Plainly (dashes :: dashes :: rest)

theorem isKnown_iff {key : Bytes} : (key == "help" || key == "h") = true ↔ key = "help" ∨ key = "h" := by
  simp

theorem longOption?_eq_some_iff {name : Bytes} {said : Bool} :
    longOption? name = some said ↔ Flag (45 :: 45 :: name) said := by
  constructor
  · intro h
    unfold longOption? at h
    cases hc : Bytes.cut 61 name with
    | none =>
      simp only [hc, Option.getD_none] at h
      split at h
      · next hk =>
        obtain rfl : true = said := Option.some.inj (Eq.trans (by decide) h)
        exact .long (isKnown_iff.mp hk)
      · cases h
    | some pair =>
      obtain ⟨key, value⟩ := pair
      simp only [hc, Option.getD_some] at h
      split at h
      · next hk =>
        rw [Bytes.eq_of_cut hc]
        exact .valued (isKnown_iff.mp hk) h
      · cases h
  · intro h
    generalize hword : 45 :: 45 :: name = word at h
    cases h with
    | letters n => cases hword
    | long known =>
      cases hword
      rcases known with rfl | rfl <;> rfl
    | @valued key value _ known truth =>
      cases hword
      have hequals : 61 ∉ key := by rcases known with rfl | rfl <;> decide
      rw [longOption?, Bytes.cut_append hequals]
      exact (if_pos (isKnown_iff.mpr known)).trans truth

/-! ### Going through the options -/

section
variable {help said after : Bool} {word : Bytes} {words flags rest : List Bytes}

theorem options_flag (h : Flag word said) : options help (word :: rest) = options said rest := by
  cases h with
  | letters n => simp [options]
  | @long name known =>
    have hsome := longOption?_eq_some_iff.mpr (Flag.long known)
    rcases known with rfl | rfl <;> rfl
  | @valued name value _ known truth =>
    have hsome := longOption?_eq_some_iff.mpr (Flag.valued known truth)
    rcases known with rfl | rfl <;>
      exact congrArg (Option.bind · fun b => options b rest) hsome

theorem Flags.options_append (h : Flags help flags after) (rest : List Bytes) :
    options help (flags ++ rest) = options after rest := by
  induction h with
  | none help => rfl
  | more first others ih =>
    rw [List.cons_append, options_flag first]
    exact ih

theorem options_ordinary (h : Ordinary word) :
    options help (word :: rest) = some (help, word :: rest) := by
  rcases h with h | rfl
  · cases word with
    | nil => rfl
    | cons b word =>
      have hb : b ≠ 45 := by simpa using h
      simp [options, hb]
  · rfl

theorem options_unknown (h : Unknown word) : options help (word :: rest) = none := by
  obtain ⟨hordinary, hdashes, hflag⟩ := h
  obtain ⟨hhead, hdash⟩ := not_or.mp hordinary
  obtain ⟨letters, rfl⟩ : ∃ letters, word = 45 :: letters := by
    cases word with
    | nil => exact absurd (by simp) hhead
    | cons b letters =>
      obtain rfl : b = 45 := by simpa using hhead
      exact ⟨letters, rfl⟩
  rcases letters with _ | ⟨c, cs⟩
  · exact absurd rfl hdash
  by_cases hc : c = 45
  · subst hc
    have hnone : longOption? cs = none := by
      rw [Option.eq_none_iff_forall_ne_some]
      exact fun said hs => hflag said (longOption?_eq_some_iff.mp hs)
    cases cs with
    | nil => exact absurd rfl hdashes
    | cons d ds => exact congrArg (Option.bind · fun b => options b rest) hnone
  · have hletters : ((c :: cs).all (· == 104)) = false := by
      rw [Bool.eq_false_iff]
      intro hall
      have hword : ∀ b ∈ c :: cs, b = 104 := by simpa using hall
      obtain rfl : c = 104 := hword c List.mem_cons_self
      refine hflag true ?_
      rw [List.eq_replicate_of_mem fun b hb => hword b (List.mem_cons_of_mem _ hb)]
      exact .letters _
    simp [options, hc, hletters]

/-- In front of all that begins with no option are the options. -/
theorem exists_flags (help : Bool) (words : List Bytes) :
    ∃ flags rest after, words = flags ++ rest ∧ Flags help flags after ∧
      (Stops rest ∨ ∃ bad more, rest = bad :: more ∧ Unknown bad) := by
  induction words generalizing help with
  | nil => exact ⟨[], [], help, rfl, .none help, .inl .none⟩
  | cons word words ih =>
    by_cases hflag : ∃ said, Flag word said
    · obtain ⟨said, first⟩ := hflag
      obtain ⟨flags, rest, after, rfl, others, hrest⟩ := ih said
      exact ⟨word :: flags, rest, after, rfl, .more first others, hrest⟩
    · refine ⟨[], word :: words, help, rfl, .none help, ?_⟩
      by_cases hdashes : word = dashes
      · exact .inl (hdashes ▸ .dashes words)
      by_cases hword : Ordinary word
      · exact .inl (.word hword words)
      · exact .inr ⟨word, words, rfl, hword, hdashes, not_exists.mp hflag⟩

end

/-! ### The request -/

section
variable {word : Bytes} {said : Bool} {flags rest : List Bytes}

theorem AsksForHelp.flag (h : AsksForHelp word) : Flag word true := by
  rcases h with rfl | rfl
  · exact .letters 0
  · exact .long (.inl rfl)

theorem Ordinary.not_flag (h : Ordinary word) (said : Bool) : ¬ Flag word said := by
  intro hflag
  have hdash : ("-" : Bytes) = [45] := by decide
  have hfront : word.head? = some 45 ∧ word ≠ "-" := by
    cases hflag <;> exact ⟨rfl, by simp [hdash]⟩
  exact h.elim (absurd hfront.1) hfront.2

theorem not_asksForHelp (h : ∀ said, ¬ Flag word said) : ¬ AsksForHelp word :=
  fun hasks => h true hasks.flag

/-- The request is settled by what comes behind the options. -/
theorem request_append {after : Bool} (h : Flags false flags after) (rest : List Bytes) :
    request (flags ++ rest) =
      match options after rest with
      | some (true, _) => .help
      | some (false, dir :: _) => .to dir
      | some (false, []) => .home
      | none => .to ((flags ++ rest).headD []) := by
  rw [← h.options_append]
  rfl

theorem request_help (h : Flags false flags true) (stops : Stops rest) :
    request (flags ++ rest) = .help := by
  rw [request_append h]
  cases stops with
  | none => rfl
  | dashes rest => rfl
  | word ordinary rest => rw [options_ordinary ordinary]

theorem request_unknown {after : Bool} {bad : Bytes} (h : Flags false (word :: flags) after)
    (unknown : Unknown bad) : request (word :: flags ++ bad :: rest) = .to word := by
  rw [request_append h, options_unknown unknown]
  rfl

theorem request_directory (start : word ≠ dashes) (noFlag : ∀ said, ¬ Flag word said)
    (rest : List Bytes) : request (word :: rest) = .to word := by
  by_cases hword : Ordinary word
  · rw [request, options_ordinary hword]
  · rw [request, options_unknown ⟨hword, start, noFlag⟩]
    rfl

theorem Plainly.request_eq {args : List Bytes} (h : Plainly args) : request args = documented args := by
  cases h with
  | none => rfl
  | directory start noFlag rest =>
    rw [request_directory start noFlag, documented, if_neg (not_asksForHelp noFlag)]
  | help asks others stops =>
    exact (request_help (.more asks.flag others) stops).trans (if_pos asks).symm
  | refused silent first others unknown rest =>
    exact (request_unknown (.more first others) unknown).trans (if_neg silent).symm
  | again silent first others rest =>
    exact (request_append (.more first others) _).trans (if_neg silent).symm
  | dashes rest => rfl

theorem plainly_of_request_eq {args : List Bytes} (h : request args = documented args) :
    Plainly args := by
  cases args with
  | nil => exact .none
  | cons word words =>
    by_cases hasks : AsksForHelp word
    · rw [documented, if_pos hasks] at h
      obtain ⟨flags, rest, after, rfl, others, hstops | ⟨bad, more, rfl, unknown⟩⟩ :=
        exists_flags true words
      · cases after with
        | true => exact .help hasks others hstops
        | false =>
          rw [← List.cons_append, request_append (.more hasks.flag others)] at h
          cases hstops with
          | none => cases h
          | dashes rest => cases rest <;> cases h
          | word ordinary rest =>
            rw [options_ordinary ordinary] at h
            cases h
      · rw [← List.cons_append, request_unknown (.more hasks.flag others) unknown] at h
        cases h
    · rw [documented, if_neg hasks] at h
      by_cases hflag : ∃ said, Flag word said
      · obtain ⟨said, first⟩ := hflag
        obtain ⟨flags, rest, after, rfl, others, hstops | ⟨bad, more, rfl, unknown⟩⟩ :=
          exists_flags said words
        · cases after with
          | true =>
            rw [← List.cons_append, request_help (.more first others) hstops] at h
            cases h
          | false =>
            rw [← List.cons_append, request_append (.more first others)] at h
            cases hstops with
            | none => cases h
            | dashes rest =>
              cases rest with
              | nil => cases h
              | cons dir rest =>
                obtain rfl : dir = word := Request.to.inj h
                exact .again hasks first others rest
            | word ordinary rest =>
              rw [options_ordinary ordinary] at h
              obtain rfl := Request.to.inj h
              exact absurd first (ordinary.not_flag said)
        · exact .refused hasks first others unknown more
      · by_cases hdashes : word = dashes
        · subst hdashes
          cases words with
          | nil => cases h
          | cons dir rest =>
            obtain rfl : dir = dashes := Request.to.inj h
            exact .dashes rest
        · exact .directory hdashes (not_exists.mp hflag) words

/-- A directory that is asked for is one of the words. -/
theorem mem_of_request {args : List Bytes} {dir : Bytes} (h : request args = .to dir) :
    dir ∈ args := by
  obtain ⟨flags, rest, after, rfl, hflags, hstops | ⟨bad, more, rfl, unknown⟩⟩ :=
    exists_flags false args
  · rw [request_append hflags] at h
    cases hstops with
    | none => cases after <;> cases h
    | dashes rest =>
      cases after <;> cases rest <;> cases h
      simp
    | word ordinary rest =>
      rw [options_ordinary ordinary] at h
      cases after <;> cases h
      simp
  · rw [request_append hflags, options_unknown unknown] at h
    cases h
    cases flags <;> simp

end

/-- What is to be done about a request. -/
def answer (disk : Disk) (here : Surroundings) :
    Request → Except Surroundings.Failure (Bytes × Surroundings)
  | .help => .ok (helpText, here)
  | .to dir => (here.enter disk dir).map fun moved => ([], moved)
  | .home =>
    match here.env.lookup? "HOME" with
    | none => .error .noHome
    | some home =>
      if home = [] then .error .noHome else (here.enter disk home).map fun moved => ([], moved)

theorem run_eq_answer (disk : Disk) (here : Surroundings) (args : List Bytes) :
    run disk here args = answer disk here (request args) := by
  rw [run]
  rcases request args with _ | _ | dir
  · rfl
  · cases hhome : here.env.lookup? "HOME" with
    | none => simp [answer, Surroundings.enterHome, Environment.get, hhome, Except.map]
    | some home =>
      cases home <;> simp [answer, Surroundings.enterHome, Environment.get, hhome, Except.map]
  · rfl

end ChangeDirectory

namespace Executor
open ChangeDirectory

/-- A cd ends with success or with a diagnostic, and is recorded. -/
def concluded (ex : Executor) (streams : Streams) (argv : List Bytes) (s : Running) :
    Except Surroundings.Failure (Bytes × Surroundings) → Status × Running
  | .ok (text, here) =>
    (Status.success, ((ex.record (.builtin { command := some argv })).run
      { here, world := s.world.print streams.output text }).2)
  | .error e =>
    (Status.unknown, ((ex.record
      (.builtin { command := some argv, status := Status.unknown, error := e.message })).run
        ((ex.say streams (argv.headD [] ++ ": " ++ e.message)).run s).2).2)

theorem run_execute_cd (ex : Executor) (args : List Bytes) (files : Redirections) (l r : Tree)
    (streams : Streams) (s : Running) :
    (ex.execute (.node .plain ("cd" :: args) files l r) streams).run s =
      ex.concluded streams ("cd" :: args) s (answer s.world.disk s.here (request args)) := by
  have hplain : (ex.execute (.node .plain ("cd" :: args) files l r) streams).run s =
      (ex.builtin streams ("cd" :: args) .cd).run s := ex.run_plain_cons files streams s "cd" args
  rw [hplain, run_cd, List.tail_cons, run_eq_answer]
  cases answer s.world.disk s.here (request args) <;> rfl

/-- A cd goes home without a word, tells its usage if the first word asks for help, and else goes where
the first word says, exactly if the arguments are plain; no other word counts then. In any case it looks
at no word that is not there. -/
theorem cd_takes_first_word (args : List Bytes) :
    (request args = documented args ↔ Plainly args) ∧
    (options false args = none → args ≠ []) ∧
    (∀ dir, request args = .to dir → dir ∈ args) ∧
    (Plainly args →
      (∀ word rest other, args = word :: rest → Plainly (word :: other) →
        request (word :: other) = request args) ∧
      ∀ (ex : Executor) files l r streams s,
        (ex.execute (.node .plain ("cd" :: args) files l r) streams).run s =
          ex.concluded streams ("cd" :: args) s
            (answer s.world.disk s.here (documented args))) := by
  refine ⟨⟨plainly_of_request_eq, Plainly.request_eq⟩, ?_, fun dir => mem_of_request, fun hargs => ?_⟩
  · rintro hnone rfl
    cases hnone
  · refine ⟨fun word rest other he hother => ?_, fun ex files l r streams s => ?_⟩
    · rw [hother.request_eq, hargs.request_eq, he, documented, documented]
    · rw [run_execute_cd, hargs.request_eq]

example : request ["--", "dev"] = .to "dev" ∧ documented ["--", "dev"] = .to "--" := by decide

example : request ["-h", "-x"] = .to "-h" ∧ documented ["-h", "-x"] = .help := by decide

/-- An unknown option in front is a directory, and help that is asked for is given in spite of a word
behind it. -/
theorem cd_takes_first_word_dash :
    let ex : Executor := { name := [], programs := fun _ => .exit 0 }
    let s : Running := ⟨⟨"/", .empty⟩, Sandbox.start (Sandbox.disk []) []⟩
    let cd (args : List Bytes) :=
      (ex.execute (.node .plain ("cd" :: args) {} .absent .absent) Sandbox.streams).run s
    Plainly ["-x", "--help"] ∧ (cd ["-x", "--help"]).1 = Status.unknown ∧
      Plainly ["-h", "--help=on", "dev"] ∧ (cd ["-h", "--help=on", "dev"]).1 = Status.success ∧
      (cd ["-h", "--help=on", "dev"]).2.here = s.here ∧
      Sandbox.contents (cd ["-h", "--help=on", "dev"]).2.world 1 = helpText := by
  intro ex s cd
  have hx : ∀ said, ¬ Flag "-x" said := by
    intro said h
    generalize hword : ("-x" : Bytes) = word at h
    cases h <;> cases hword
  have hdirectory : Plainly ["-x", "--help"] := .directory (by decide) hx _
  have hvalued : Flag "--help=on" true :=
    @Flag.valued "help" "on" true (.inl rfl) (by decide)
  have hhelp : Plainly ["-h", "--help=on", "dev"] :=
    @Plainly.help "-h" ["--help=on"] ["dev"] (.inl rfl) (.more hvalued (.none true))
      (.word (.inl (by decide)) [])
  obtain ⟨-, -, -, hmissing⟩ := cd_takes_first_word ["-x", "--help"]
  obtain ⟨-, -, -, hgiven⟩ := cd_takes_first_word ["-h", "--help=on", "dev"]
  have hm := (hmissing hdirectory).2 ex {} .absent .absent Sandbox.streams s
  have hg := (hgiven hhelp).2 ex {} .absent .absent Sandbox.streams s
  refine ⟨hdirectory, ?_, hhelp, ?_, ?_, ?_⟩
  · exact (congrArg Prod.fst hm).trans (by cbv)
  · exact congrArg Prod.fst hg
  · exact congrArg (fun run => run.2.here) hg
  · exact (congrArg (fun run => Sandbox.contents run.2.world 1) hg).trans (by cbv)

end Executor

end CommandShell
