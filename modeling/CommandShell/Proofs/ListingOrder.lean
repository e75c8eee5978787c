import CommandShell.Proofs.NestedEnvironments

/-! The order of a listing. Entries are compared as whole texts, so variables come in the order of their
names with the equals sign behind them, which is the order of the names themselves unless one name goes
on behind another with a byte below the equals sign. -/
namespace CommandShell.Environment

/-- The name that an entry of a listing sets. -/
def entryName (entry : Bytes) : Bytes := (parseEntry entry).1

/-- The longer name comes first in a listing although it is the later one: behind the shorter name it
goes on with a byte below the equals sign. -/
def Overtakes (longer name : Bytes) : Prop := ∃ b rest, longer = name ++ b :: rest ∧ b < 61

variable {name name' : Bytes}

theorem Overtakes.cons_iff {b : UInt8} : Overtakes (b :: name) (b :: name') ↔ Overtakes name name' := by
  simp [Overtakes]

/-! ### Two names -/

/-- What stands behind the equals signs of two names does not matter. -/
theorem entry_lt_iff (h : 61 ∉ name) (h' : 61 ∉ name') (hne : name ≠ name') (value value' : Bytes) :
    name ++ 61 :: value < name' ++ 61 :: value' ↔ name < name' ∧ ¬ Overtakes name' name ∨
      Overtakes name name' := by
  induction name generalizing name' with
  | nil =>
    obtain ⟨b, rest, rfl⟩ := List.exists_cons_of_ne_nil hne.symm
    have hb : 61 ≠ b := fun he => h' (he ▸ List.mem_cons_self)
    have hnot : ¬ Overtakes [] (b :: rest) := by simp [Overtakes]
    have hover : Overtakes (b :: rest) [] ↔ b < 61 := by simp [Overtakes]
    have hle : ¬ b < 61 ↔ 61 < b := by grind
    simp [List.cons_lt_cons_iff, hb, hnot, hover, hle]
  | cons a name ih =>
    cases name' with
    | nil =>
      have ha : a ≠ 61 := fun he => h (he ▸ List.mem_cons_self)
      simp [List.cons_lt_cons_iff, ha, Overtakes]
    | cons b name' =>
      rw [List.cons_append, List.cons_append, List.cons_lt_cons_iff, List.cons_lt_cons_iff]
      by_cases hab : a = b
      · subst hab
        have ih := ih (fun hm => h (List.mem_cons_of_mem _ hm)) (fun hm => h' (List.mem_cons_of_mem _ hm))
          (fun he => hne (by rw [he]))
        simp [ih, Overtakes.cons_iff]
      · have hnot {s t : Bytes} {a b : UInt8} (hab : a ≠ b) : ¬ Overtakes (a :: s) (b :: t) := by
          rintro ⟨c, rest, he, -⟩
          exact hab (List.cons.inj he).1
        simp [hab, hnot hab, hnot (Ne.symm hab)]

theorem entry_lt_congr (h : 61 ∉ name) (h' : 61 ∉ name') (hne : name ≠ name') {value value' : Bytes}
    (hlt : name ++ 61 :: value < name' ++ 61 :: value') : name ++ ("=" : Bytes) < name' ++ ("=" : Bytes) :=
  (entry_lt_iff h h' hne [] []).mpr ((entry_lt_iff h h' hne value value').mp hlt)

theorem Overtakes.lt (h : Overtakes name name') : name' < name := by
  obtain ⟨b, rest, rfl, -⟩ := h
  have hlt : name' ++ [] < name' ++ b :: rest := List.append_left_lt (List.nil_lt_cons b rest)
  rwa [List.append_nil] at hlt

/-! ### A listing -/

theorem exists_eq_entry {env : Environment} {entry : Bytes} (h : entry ∈ env.listing) :
    ∃ value, entry = entryName entry ++ 61 :: value := by
  have hequals : 61 ∈ entry := by
    obtain ⟨pair, -, rfl⟩ := List.mem_map.mp ((List.mergeSort_perm _ _).mem_iff.mp h)
    exact List.mem_append_left _ (List.mem_append_right _ (by decide))
  refine ⟨(parseEntry entry).2, ?_⟩
  conv_lhs => rw [← showEntry_parseEntry hequals, showEntry, List.append_assoc]
  rfl

namespace Plain
variable {env : Environment} (h : env.Plain)
include h

theorem perm_names : (env.listing.map entryName).Perm (env.entries.map Prod.fst) := by
  have hperm : (env.listing.map entryName).Perm ((env.entries.map showEntry).map entryName) :=
    (List.mergeSort_perm _ _).map entryName
  have hnames : (env.entries.map showEntry).map entryName = env.entries.map Prod.fst := by
    rw [List.map_map]
    refine List.map_congr_left fun entry hm => ?_
    rw [Function.comp_apply, entryName, parseEntry_showEntry (h entry hm)]
  rwa [hnames] at hperm

theorem mem_names : name ∈ env.listing.map entryName ↔ (env.lookup? name).isSome := by
  rw [h.perm_names.mem_iff, mem_entries_names]

theorem equals_not_mem (hset : (env.lookup? name).isSome) : 61 ∉ name := by
  obtain ⟨value, hv⟩ := Option.isSome_iff_exists.mp hset
  exact h _ (lookup?_eq_some_iff.mp hv)

/-- Names with the equals sign behind them come in order. -/
theorem pairwise_names :
    (env.listing.map entryName).Pairwise fun name name' => name ++ ("=" : Bytes) < name' ++ "=" := by
  have hnodup : (env.listing.map entryName).Nodup := h.perm_names.nodup_iff.mpr env.distinct
  have hsorted : env.listing.Pairwise (· ≤ ·) := Bytes.pairwise_sort _
  rw [List.Nodup, List.pairwise_map] at hnodup
  rw [List.pairwise_map]
  refine (hsorted.and hnodup).imp_of_mem fun {entry entry'} hm hm' hboth => ?_
  obtain ⟨hle, hne⟩ := hboth
  obtain ⟨value, he⟩ := exists_eq_entry hm
  obtain ⟨value', he'⟩ := exists_eq_entry hm'
  have hlt : entry < entry' := Std.lt_of_le_of_ne hle fun heq => hne (congrArg entryName heq)
  rw [he, he'] at hlt
  exact entry_lt_congr (parseEntry_name entry) (parseEntry_name entry') hne hlt

end Plain

/-- The names in a listing rise once the equals sign is put behind them. They rise as they are if and only
if no variable that is set overtakes another. -/
theorem names_rise_iff {env : Environment} (h : env.Plain) :
    (env.listing.map entryName).Pairwise (fun name name' => name ++ ("=" : Bytes) < name' ++ "=") ∧
      ((env.listing.map entryName).Pairwise (· < ·) ↔
        ∀ name longer, (env.lookup? name).isSome → (env.lookup? longer).isSome →
          ¬ Overtakes longer name) := by
  have hpairwise := h.pairwise_names
  have hiff {name name' : Bytes} (hset : (env.lookup? name).isSome) (hset' : (env.lookup? name').isSome)
      (hne : name ≠ name') := entry_lt_iff (h.equals_not_mem hset) (h.equals_not_mem hset') hne [] []
  refine ⟨hpairwise, fun hrise name longer hset hlong hover => ?_, fun hnone => ?_⟩
  · -- the longer name cannot stand in front, since the shorter one is smaller, nor behind
    have hne : longer ≠ name := fun he => List.lt_irrefl _ (he ▸ hover.lt)
    obtain ⟨before, after, hnames⟩ := List.append_of_mem (h.mem_names.mpr hlong)
    have hm : name ∈ before ++ longer :: after := hnames ▸ h.mem_names.mpr hset
    rw [hnames, List.pairwise_append, List.pairwise_cons] at hpairwise hrise
    rcases List.mem_append.mp hm with hm | hm
    · have hlt := hpairwise.2.2 name hm longer List.mem_cons_self
      exact List.lt_asymm hlt ((hiff hlong hset hne).mpr (.inr hover))
    · have hlt := hrise.2.1.1 name ((List.mem_cons.mp hm).resolve_left hne.symm)
      exact List.lt_asymm hlt hover.lt
  · refine hpairwise.imp_of_mem fun {name name'} hm hm' hlt => ?_
    have hset := h.mem_names.mp hm
    have hset' := h.mem_names.mp hm'
    have hne : name ≠ name' := by
      rintro rfl
      exact List.lt_irrefl _ hlt
    rcases (hiff hset hset' hne).mp hlt with ⟨hlt, -⟩ | hover
    · exact hlt
    · exact absurd hover (hnone name' name hset' hset)

/-- Two variables of which the later one is listed first, and what is left when it is unset. -/
theorem names_rise_iff_numbered :
    let nest := Nest.run ⟨ofListing ["A=x", "A1=y"], []⟩ [.set "AB" "z"]
    let less := nest.current.unset "A1"
    nest.current.listing = (["A1=y", "A=x", "AB=z"] : List Bytes) ∧
      ¬ (nest.current.listing.map entryName).Pairwise (· < ·) ∧
      (less.listing.map entryName).Pairwise (· < ·) := by
  intro nest less
  have hplain : nest.current.Plain := (plain_ofListing _).set (by decide) _
  have hless : less.Plain := hplain.unset _
  have hnames {name : Bytes} (hset : (less.lookup? name).isSome) : name = "AB" ∨ name = "A" := by
    obtain ⟨value, hv⟩ := Option.isSome_iff_exists.mp hset
    have hm : name ∈ less.entries.map Prod.fst := List.mem_map_of_mem (lookup?_eq_some_iff.mp hv)
    have hentries : less.entries.map Prod.fst = (["AB", "A"] : List Bytes) := by decide
    rwa [hentries, List.mem_cons, List.mem_singleton] at hm
  refine ⟨Bytes.sort_eq_of_perm (by decide) (by decide), fun hrise => ?_, ?_⟩
  · exact (names_rise_iff hplain).2.mp hrise "A" "A1" (by decide) (by decide) ⟨49, [], by decide, by decide⟩
  · refine (names_rise_iff hless).2.mpr fun name longer hset hlong hover => ?_
    obtain ⟨b, rest, he, hb⟩ := hover
    rcases hnames hset with rfl | rfl <;> rcases hnames hlong with rfl | rfl <;> cases he
    -- only AB goes on behind A
    exact absurd hb (by decide)

end CommandShell.Environment
