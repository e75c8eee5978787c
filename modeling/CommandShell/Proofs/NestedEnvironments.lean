import CommandShell.Proofs.EnvironmentCopy
import Mathlib

/-! The environments of nested processes. Each variable has the value that was last written to it in
its own environment, or the one that it had when that was forked, whatever happens in the others. A
listing names each variable that is set exactly once, and what is built from it has the same values. -/
namespace CommandShell.Environment

/-! ### What a listing says -/

/-- The value that an entry of a listing gives a variable. The name is all that stands in front of the
first equals sign, and a variable that is only named is set to nothing. -/
def told (name entry : Bytes) : Option Bytes :=
  if 61 ∈ name then none
  else if entry = name then some []
  else if Bytes.startsWith entry (name ++ "=") then some (entry.drop (name.length + 1))
  else none

/-- The value that a listing gives a variable in the end. -/
def lastTold (listing : List Bytes) (name : Bytes) : Option Bytes :=
  listing.reverse.findSome? (told name)

theorem parseEntry_eq_iff {entry name value : Bytes} :
    parseEntry entry = (name, value) ↔
      61 ∉ name ∧ (entry = name ++ 61 :: value ∨ entry = name ∧ value = []) := by
  constructor
  · intro h
    have hname : 61 ∉ name := by
      have hp := parseEntry_name entry
      rwa [h] at hp
    refine ⟨hname, ?_⟩
    rw [parseEntry] at h
    cases hc : Bytes.cut 61 entry with
    | none =>
      rw [hc] at h
      cases h
      exact .inr ⟨rfl, rfl⟩
    | some pair =>
      rw [hc] at h
      cases h
      exact .inl (Bytes.eq_of_cut hc)
  · rintro ⟨hname, rfl | ⟨rfl, rfl⟩⟩
    · rw [parseEntry, Bytes.cut_append hname]
      rfl
    · cases hc : Bytes.cut 61 entry with
      | none => rw [parseEntry, hc]; rfl
      | some pair => exact absurd (by rw [Bytes.eq_of_cut hc]; simp) hname

theorem told_eq_some_iff {name entry value : Bytes} :
    told name entry = some value ↔ parseEntry entry = (name, value) := by
  rw [parseEntry_eq_iff, told]
  by_cases hname : 61 ∈ name
  · simp [hname]
  rw [if_neg hname]
  by_cases hentry : entry = name
  · subst hentry
    have hno : entry ≠ entry ++ 61 :: value := by simp
    rw [if_pos rfl, Option.some.injEq]
    exact ⟨fun h => ⟨hname, .inr ⟨rfl, h.symm⟩⟩, fun h => (h.2.resolve_left hno).2.symm⟩
  rw [if_neg hentry]
  have hequals : name ++ ("=" : Bytes) = name ++ [61] := rfl
  by_cases hstart : Bytes.startsWith entry (name ++ "=")
  · rw [if_pos hstart, Option.some.injEq]
    rw [Bytes.startsWith, hequals, List.isPrefixOf_iff_prefix] at hstart
    obtain ⟨rest, rfl⟩ := hstart
    have hdrop : (name ++ [61] ++ rest).drop (name.length + 1) = rest :=
      List.drop_left' (by simp)
    rw [hdrop]
    simp [hname]
  · rw [if_neg hstart]
    have hno : entry ≠ name ++ 61 :: value := by
      rintro rfl
      refine hstart ?_
      rw [Bytes.startsWith, hequals, List.isPrefixOf_iff_prefix]
      exact ⟨value, by simp⟩
    simp [hno, hentry]

theorem lookup?_addAll (env : Environment) (listing : List Bytes) (name : Bytes) :
    (env.addAll listing).lookup? name = (lastTold listing name).or (env.lookup? name) := by
  induction listing generalizing env with
  | nil => rfl
  | cons entry rest ih =>
    have hlast : lastTold (entry :: rest) name = (lastTold rest name).or (told name entry) := by
      simp [lastTold, List.findSome?_append]
    rw [addAll, List.foldl_cons, ← addAll, ih, lookup?_set, hlast, Option.or_assoc]
    congr 1
    cases ht : told name entry with
    | none =>
      refine (if_neg ?_).trans rfl
      rintro rfl
      have hsome : told (parseEntry entry).1 entry = some (parseEntry entry).2 :=
        told_eq_some_iff.mpr rfl
      rw [ht] at hsome
      cases hsome
    | some value =>
      rw [told_eq_some_iff.mp ht, if_pos rfl]
      rfl

theorem lookup?_ofListing (listing : List Bytes) (name : Bytes) :
    (ofListing listing).lookup? name = lastTold listing name := by
  rw [ofListing, lookup?_addAll]
  exact Option.or_none

theorem Plain.lastTold_listing {env : Environment} (h : env.Plain) (name : Bytes) :
    lastTold env.listing name = env.lookup? name := by
  rw [← lookup?_ofListing]
  exact h.lookup?_fork name

theorem lookup?_unset (env : Environment) (name other : Bytes) :
    (env.unset name).lookup? other = if other = name then none else env.lookup? other := by
  refine Option.ext fun value => ?_
  have hunset : (env.unset name).entries = env.entries.filter (·.1 != name) := rfl
  rw [lookup?_eq_some_iff, hunset, List.mem_filter]
  by_cases h : other = name
  · simp [h]
  · simp [h, lookup?_eq_some_iff]

theorem Plain.unset {env : Environment} (h : env.Plain) (name : Bytes) : (env.unset name).Plain :=
  fun entry hm => h entry (List.mem_of_mem_filter hm)

/-! ### Nested processes -/

/-- What happens to the environments of nested processes. The process that was forked last is at level
zero, and the one that it was forked from is at the next level. -/
inductive Edit where
  | set (name value : Bytes)
  | unset (name : Bytes)
  | copy (listing : List Bytes)
  /-- Copies what the environment at a level has. -/
  | copyFrom (level : Nat)
  | fork
  /-- Goes back to the process that the present one was forked from. The first one just goes on. -/
  | back
  deriving DecidableEq, Repr

/-- The environment of the present process, and those of the processes that it descends from. -/
structure Nest where
  current : Environment
  outer : List Environment := []

namespace Nest

/-- The environments by their levels. -/
def levels (n : Nest) : List Environment := n.current :: n.outer

def step (n : Nest) : Edit → Nest
  | .set name value => { n with current := n.current.set name value }
  | .unset name => { n with current := n.current.unset name }
  | .copy listing => { n with current := n.current.addAll listing }
  | .copyFrom level => { n with current := n.current.addAll ((n.levels[level]?).elim [] listing) }
  | .fork => ⟨n.current.fork, n.levels⟩
  | .back =>
    match n.outer with
    | [] => n
    | env :: outer => ⟨env, outer⟩

def run (n : Nest) (edits : List Edit) : Nest := edits.foldl step n

end Nest

/-- How many processes are above the present one after some edits, the latest first. -/
def depth : List Edit → Nat
  | [] => 0
  | .fork :: past => depth past + 1
  | .back :: past => depth past - 1
  | _ :: past => depth past

/-- The value that was last written to a variable of the environment at a level, if it is still set
after some edits, the latest first. A process inherits what is set when it is forked. -/
def lastWritten (initial : List Bytes) (name : Bytes) : List Edit → Nat → Option Bytes
  | [], 0 => lastTold initial name
  | [], _ + 1 => none
  | .fork :: past, level => lastWritten initial name past (level - 1)
  | .back :: past, level =>
    lastWritten initial name past (if depth past = 0 then level else level + 1)
  | .set other value :: past, 0 =>
    if name = other then some value else lastWritten initial name past 0
  | .unset other :: past, 0 => if name = other then none else lastWritten initial name past 0
  | .copy listing :: past, 0 => (lastTold listing name).or (lastWritten initial name past 0)
  | .copyFrom level :: past, 0 =>
    (lastWritten initial name past level).or (lastWritten initial name past 0)
  | _ :: past, level + 1 => lastWritten initial name past (level + 1)

/-- After some edits, the latest first, the environments have the values that were last written. -/
structure Nest.Keeps (n : Nest) (initial : List Bytes) (past : List Edit) : Prop where
  depth : n.outer.length = depth past
  plain : ∀ env ∈ n.levels, env.Plain
  lookup : ∀ level name,
    (n.levels[level]?.bind (·.lookup? name)) = lastWritten initial name past level

namespace Nest
variable {n : Nest} {initial : List Bytes} {past : List Edit}

theorem keeps_ofListing (initial : List Bytes) : Keeps ⟨ofListing initial, []⟩ initial [] where
  depth := rfl
  plain := by simpa [levels] using plain_ofListing initial
  lookup level name := by
    cases level with
    | zero => exact lookup?_ofListing initial name
    | succ level => rfl

theorem Keeps.plain_current (h : n.Keeps initial past) : n.current.Plain :=
  h.plain _ List.mem_cons_self

theorem Keeps.lookup_current (h : n.Keeps initial past) (name : Bytes) :
    n.current.lookup? name = lastWritten initial name past 0 := h.lookup 0 name

/-- What changes the present environment only leaves those above as they are. -/
theorem Keeps.edit {edit : Edit} {env : Environment} (h : n.Keeps initial past)
    (hdepth : Environment.depth (edit :: past) = Environment.depth past) (hplain : env.Plain)
    (hlookup : ∀ name, env.lookup? name = lastWritten initial name (edit :: past) 0)
    (habove : ∀ level name, lastWritten initial name (edit :: past) (level + 1) =
      lastWritten initial name past (level + 1)) :
    Keeps { n with current := env } initial (edit :: past) where
  depth := h.depth.trans hdepth.symm
  plain := List.forall_mem_cons.mpr ⟨hplain, (List.forall_mem_cons.mp h.plain).2⟩
  lookup level name := by
    cases level with
    | zero => exact hlookup name
    | succ level => rw [habove, ← h.lookup]; rfl

theorem Keeps.step {edit : Edit} (h : n.Keeps initial past)
    (hname : ∀ name value, edit = .set name value → 61 ∉ name) :
    (n.step edit).Keeps initial (edit :: past) := by
  cases edit with
  | set other value =>
    refine h.edit rfl (h.plain_current.set (hname other value rfl) value) (fun name => ?_)
      fun _ _ => rfl
    rw [lookup?_set, h.lookup_current]
    rfl
  | unset other =>
    refine h.edit rfl (h.plain_current.unset other) (fun name => ?_) fun _ _ => rfl
    rw [lookup?_unset, h.lookup_current]
    rfl
  | copy listing =>
    refine h.edit rfl (h.plain_current.addAll listing) (fun name => ?_) fun _ _ => rfl
    rw [lookup?_addAll, h.lookup_current]
    rfl
  | copyFrom level =>
    refine h.edit rfl (h.plain_current.addAll _) (fun name => ?_) fun _ _ => rfl
    rw [lookup?_addAll, h.lookup_current, lastWritten, ← h.lookup level]
    cases hsource : n.levels[level]? with
    | none => rfl
    | some source =>
      have hplain : source.Plain := h.plain source (List.mem_of_getElem? hsource)
      exact congrArg (Option.or · _) (hplain.lastTold_listing name)
  | fork =>
    refine ⟨congrArg (· + 1) h.depth, ?_, fun level name => ?_⟩
    · exact List.forall_mem_cons.mpr ⟨plain_ofListing _, h.plain⟩
    · cases level with
      | zero =>
        rw [lastWritten, Nat.zero_sub, ← h.lookup_current]
        exact h.plain_current.lookup?_fork name
      | succ level =>
        rw [lastWritten, Nat.add_sub_cancel, ← h.lookup]
        rfl
  | back =>
    obtain ⟨current, outer⟩ := n
    have hd : outer.length = Environment.depth past := h.depth
    cases outer with
    | nil =>
      have hroot : Environment.depth past = 0 := hd.symm
      refine ⟨?_, h.plain, fun level name => ?_⟩
      · rw [Environment.depth, hroot]
        rfl
      · rw [lastWritten, if_pos hroot]
        exact h.lookup level name
    | cons env outer =>
      have hinner : Environment.depth past = outer.length + 1 := hd.symm
      refine ⟨?_, (List.forall_mem_cons.mp h.plain).2, fun level name => ?_⟩
      · rw [Environment.depth, hinner]
        rfl
      · rw [lastWritten, if_neg (by omega)]
        exact h.lookup (level + 1) name

theorem Keeps.run {edits : List Edit} (h : n.Keeps initial past)
    (hnames : ∀ name value, .set name value ∈ edits → 61 ∉ name) :
    (n.run edits).Keeps initial (edits.reverse ++ past) := by
  induction edits generalizing n past with
  | nil => exact h
  | cons edit edits ih =>
    rw [List.reverse_cons, List.append_assoc]
    refine ih (h.step fun name value he => ?_) fun name value hm => ?_
    · exact hnames name value (he ▸ List.mem_cons_self)
    · exact hnames name value (List.mem_cons_of_mem _ hm)

end Nest

/-- A listing has one entry for each variable that is set, and no other. -/
theorem perm_listing (env : Environment) :
    ∃ names : List Bytes, names.Nodup ∧ (∀ name, name ∈ names ↔ (env.lookup? name).isSome) ∧
      env.listing.Perm (names.map fun name => name ++ "=" ++ env.get name) := by
  refine ⟨env.entries.map Prod.fst, env.distinct, fun name => mem_entries_names, ?_⟩
  have hshow : env.entries.map showEntry =
      (env.entries.map Prod.fst).map fun name => name ++ "=" ++ env.get name := by
    rw [List.map_map]
    refine List.map_congr_left fun entry hm => ?_
    have hvalue : env.get entry.1 = entry.2 := by
      rw [get, lookup?_eq_some_iff.mpr hm]
      rfl
    rw [Function.comp_apply, hvalue, showEntry]
  rw [← hshow]
  exact List.mergeSort_perm _ _

/-- Environments are maps, and a fork is a copy. After any edits of nested processes every variable of
every one of them has the value that was last written to it there, or inherited when that process was
forked. Each environment lists its variables once each, and nothing else, and what is built from that
listing has the same value for every name. -/
theorem environments_are_maps (initial : List Bytes) (edits : List Edit)
    (hnames : ∀ name value, .set name value ∈ edits → 61 ∉ name) :
    let nest := Nest.run ⟨ofListing initial, []⟩ edits
    nest.levels.length = depth edits.reverse + 1 ∧
    ∀ level env, nest.levels[level]? = some env →
      (∀ name, env.lookup? name = lastWritten initial name edits.reverse level) ∧
      (∃ names : List Bytes, names.Nodup ∧
        (∀ name, name ∈ names ↔ (env.lookup? name).isSome) ∧
        env.listing.Perm (names.map fun name => name ++ "=" ++ env.get name)) ∧
      ∀ name, (ofListing env.listing).lookup? name = env.lookup? name := by
  intro nest
  have keeps : nest.Keeps initial edits.reverse := by
    have hrun := (Nest.keeps_ofListing initial).run hnames
    rwa [List.append_nil] at hrun
  refine ⟨congrArg (· + 1) keeps.depth, fun level env hlevel => ⟨fun name => ?_, ?_, fun name => ?_⟩⟩
  · rw [← keeps.lookup, hlevel]
    rfl
  · exact env.perm_listing
  · exact (keeps.plain env (List.mem_of_getElem? hlevel)).lookup?_fork name

/-- A forked process writes and takes back what it likes, and copies from the one above. -/
theorem environments_are_maps_fork :
    let initial : List Bytes := ["A=B", "C=D=E", "=x", "F"]
    let edits : List Edit := [.fork, .set "A" "1", .unset "C", .set "" "", .copyFrom 1, .unset "F"]
    let nest := Nest.run ⟨ofListing initial, []⟩ edits
    (∀ name value, .set name value ∈ edits → 61 ∉ name) ∧ nest.levels.length = 2 ∧
      (ofListing nest.current.listing).lookup? "C" = some "D=E" ∧
      (ofListing nest.current.listing).lookup? "" = some "x" ∧
      nest.outer.map (·.lookup? "F") = [some []] := by
  intro initial edits nest
  have hnames : ∀ name value, .set name value ∈ edits → 61 ∉ name := by
    intro name value hm
    simp only [edits, List.mem_cons, Edit.set.injEq, reduceCtorEq, false_or, or_false,
      List.not_mem_nil] at hm
    rcases hm with ⟨rfl, -⟩ | ⟨rfl, -⟩ <;> decide
  obtain ⟨hlength, hlevels⟩ := environments_are_maps initial edits hnames
  obtain ⟨hcurrent, -, hrebuilt⟩ := hlevels 0 nest.current rfl
  refine ⟨hnames, hlength, ?_, ?_, by cbv⟩
  · rw [hrebuilt, hcurrent]
    decide
  · rw [hrebuilt, hcurrent]
    decide

end CommandShell.Environment
