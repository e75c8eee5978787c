import CommandShell.Surroundings
import Mathlib.Data.List.Nodup
import Mathlib.Data.List.Perm.Basic
import Mathlib.Data.List.TakeWhile

/-! A fork of the environment goes through its listing. As long as no name holds an equals sign, every
variable has the same value in the fork, and all that sets variables keeps it so. Forking a fork
changes nothing more. -/
namespace CommandShell

/-- The cut is at the first separator. -/
theorem Bytes.cut_append {sep : UInt8} {s : Bytes} (h : sep ∉ s) (t : Bytes) :
    Bytes.cut sep (s ++ sep :: t) = some (s, t) := by
  have hall : ∀ b ∈ s, (b != sep) = true := by
    intro b hb
    simp only [bne_iff_ne, ne_eq]
    rintro rfl
    exact h hb
  rw [cut, List.dropWhile_append_of_pos hall, List.takeWhile_append_of_pos hall]
  simp

theorem Bytes.cut_eq_some {sep : UInt8} {s a b : Bytes} (h : Bytes.cut sep s = some (a, b)) :
    sep ∉ a := by
  unfold cut at h
  split at h
  · cases h
  · cases h
    intro hm
    simpa using List.mem_takeWhile_imp hm

theorem Bytes.cut_eq_none {sep : UInt8} {s : Bytes} (h : Bytes.cut sep s = none) : sep ∉ s := by
  unfold cut at h
  split at h
  · next hd =>
    intro hm
    simpa using List.dropWhile_eq_nil_iff.mp hd sep hm
  · cases h

theorem Bytes.eq_of_cut {sep : UInt8} {s a b : Bytes} (h : Bytes.cut sep s = some (a, b)) :
    s = a ++ sep :: b := by
  unfold cut at h
  split at h
  · cases h
  · next c after hd =>
    cases h
    have hc : c = sep := by
      have hhead := List.head?_dropWhile_not (· != sep) s
      rw [hd] at hhead
      simpa using hhead
    rw [hc] at hd
    rw [← hd, List.takeWhile_append_dropWhile]

theorem Bytes.le_iff (s t : Bytes) : Bytes.le s t = true ↔ s ≤ t := by
  induction s generalizing t with
  | nil => simp [Bytes.le]
  | cons a s ih =>
    cases t with
    | nil => simp [Bytes.le]
    | cons b t =>
      rw [Bytes.le, List.cons_le_cons_iff, ← ih]
      split
      · simp_all
      · split <;> grind

theorem Bytes.pairwise_sort (texts : List Bytes) : (Bytes.sort texts).Pairwise (· ≤ ·) := by
  refine (List.pairwise_mergeSort (fun a b c => ?_) (fun a b => ?_) texts).imp
    (Bytes.le_iff _ _).mp
  · simp only [Bytes.le_iff]
    exact List.le_trans
  · simp only [Bool.or_eq_true, Bytes.le_iff]
    exact List.le_total a b

/-- Texts in order are what sorting makes of them, whatever order they come in. -/
theorem Bytes.sort_eq_of_perm {texts sorted : List Bytes} (hp : texts.Perm sorted)
    (hs : sorted.Pairwise (· ≤ ·)) : Bytes.sort texts = sorted :=
  List.Perm.eq_of_pairwise (fun _ _ _ _ => List.le_antisymm) (Bytes.pairwise_sort texts) hs
    ((List.mergeSort_perm _ _).trans hp)

/-- A value is found under its name if that is used once. -/
theorem find?_of_mem {κ α : Type} [BEq κ] [LawfulBEq κ] {l : List (κ × α)}
    (hl : (l.map Prod.fst).Nodup) {entry : κ × α} (h : entry ∈ l) :
    (l.find? (·.1 == entry.1)).map Prod.snd = some entry.2 := by
  cases hf : l.find? (·.1 == entry.1) with
  | none => simpa using List.find?_eq_none.mp hf entry h
  | some found =>
    have hk : found.1 = entry.1 := by simpa using List.find?_some hf
    rw [List.inj_on_of_nodup_map hl (List.mem_of_find?_eq_some hf) h hk]
    rfl

namespace Environment

/-- No name holds an equals sign. -/
def Plain (env : Environment) : Prop := ∀ entry ∈ env.entries, 61 ∉ entry.1

theorem parseEntry_showEntry {entry : Bytes × Bytes} (h : 61 ∉ entry.1) :
    parseEntry (showEntry entry) = entry := by
  have hs : showEntry entry = entry.1 ++ 61 :: entry.2 := by
    rw [showEntry, List.append_assoc]
    rfl
  rw [parseEntry, hs, Bytes.cut_append h]
  rfl

theorem parseEntry_name (s : Bytes) : 61 ∉ (parseEntry s).1 := by
  rw [parseEntry]
  cases hc : Bytes.cut 61 s with
  | none => exact Bytes.cut_eq_none hc
  | some pair => exact Bytes.cut_eq_some hc

theorem Plain.set {env : Environment} (h : env.Plain) {name : Bytes} (hn : 61 ∉ name)
    (value : Bytes) : (env.set name value).Plain := by
  intro entry hm
  rcases List.mem_cons.mp hm with rfl | hm
  · exact hn
  · exact h entry (List.mem_of_mem_filter hm)

theorem Plain.addAll {env : Environment} (h : env.Plain) (listing : List Bytes) :
    (env.addAll listing).Plain := by
  induction listing generalizing env with
  | nil => exact h
  | cons s rest ih => exact ih (h.set (parseEntry_name s) _)

/-- What is built from a listing is plain. -/
theorem plain_ofListing (listing : List Bytes) : (ofListing listing).Plain := by
  refine Plain.addAll ?_ listing
  intro entry hm
  cases hm

theorem entries_set {env : Environment} {name : Bytes} (h : name ∉ env.entries.map Prod.fst)
    (value : Bytes) : (env.set name value).entries = (name, value) :: env.entries := by
  have hf : env.entries.filter (·.1 != name) = env.entries := by
    rw [List.filter_eq_self]
    intro entry hm
    simp only [bne_iff_ne, ne_eq]
    rintro rfl
    exact h (List.mem_map_of_mem hm)
  exact congrArg (List.cons (name, value)) hf

/-- If all names are new and differ, then each variable of a listing is added once. -/
theorem entries_addAll {env : Environment} {listing : List Bytes}
    (h : (listing.map parseEntry ++ env.entries).map Prod.fst |>.Nodup) :
    (env.addAll listing).entries = (listing.map parseEntry).reverse ++ env.entries := by
  induction listing generalizing env with
  | nil => rfl
  | cons s rest ih =>
    rw [List.map_cons, List.cons_append, List.map_cons, List.nodup_cons] at h
    have hs : (env.set (parseEntry s).1 (parseEntry s).2).entries = parseEntry s :: env.entries :=
      entries_set (fun hm => h.1 (by rw [List.map_append]; exact List.mem_append_right _ hm)) _
    have hperm : (rest.map parseEntry ++ (env.set (parseEntry s).1 (parseEntry s).2).entries).Perm
        (parseEntry s :: (rest.map parseEntry ++ env.entries)) := by
      rw [hs]
      exact List.perm_middle
    have hr := ih ((hperm.map Prod.fst).nodup_iff.mpr (List.nodup_cons.mpr h))
    rw [addAll, List.foldl_cons, ← addAll, hr, hs]
    simp

theorem lookup?_eq_some_iff {env : Environment} {name value : Bytes} :
    env.lookup? name = some value ↔ (name, value) ∈ env.entries := by
  rw [lookup?, Option.map_eq_some_iff]
  constructor
  · rintro ⟨entry, hf, rfl⟩
    have hn : entry.1 = name := by simpa using List.find?_some hf
    rw [← hn]
    exact List.mem_of_find?_eq_some hf
  · intro hm
    exact Option.map_eq_some_iff.mp (find?_of_mem env.distinct hm)

theorem mem_entries_names {env : Environment} {name : Bytes} :
    name ∈ env.entries.map Prod.fst ↔ (env.lookup? name).isSome := by
  rw [List.mem_map, Option.isSome_iff_exists]
  constructor
  · rintro ⟨entry, hm, rfl⟩
    exact ⟨entry.2, lookup?_eq_some_iff.mpr hm⟩
  · rintro ⟨value, hv⟩
    exact ⟨(name, value), lookup?_eq_some_iff.mp hv, rfl⟩

theorem lookup?_set (env : Environment) (name value other : Bytes) :
    (env.set name value).lookup? other = if other = name then some value else env.lookup? other := by
  refine Option.ext fun found => ?_
  rw [lookup?_eq_some_iff]
  have hset : (env.set name value).entries = (name, value) :: env.entries.filter (·.1 != name) := rfl
  rw [hset, List.mem_cons, List.mem_filter]
  by_cases h : other = name
  · subst h
    simp [eq_comm]
  · simp [h, lookup?_eq_some_iff]

/-- The entries of a fork are those of the environment, in another order. -/
theorem Plain.perm_fork {env : Environment} (h : env.Plain) :
    env.fork.entries.Perm env.entries := by
  have hp : (env.listing.map parseEntry).Perm env.entries := by
    have hl : (env.listing.map parseEntry).Perm ((env.entries.map showEntry).map parseEntry) :=
      (List.mergeSort_perm _ _).map _
    have hid : (env.entries.map showEntry).map parseEntry = env.entries := by
      rw [List.map_map]
      exact (List.map_congr_left fun entry hm => parseEntry_showEntry (h entry hm)).trans
        (List.map_id _)
    rwa [hid] at hl
  have he : env.fork.entries = (env.listing.map parseEntry).reverse ++ [] :=
    entries_addAll (by
      rw [show empty.entries = [] from rfl, List.append_nil]
      exact (hp.map Prod.fst).nodup_iff.mpr env.distinct)
  rw [he, List.append_nil]
  exact (List.reverse_perm _).trans hp

theorem Plain.lookup?_fork {env : Environment} (h : env.Plain) (name : Bytes) :
    env.fork.lookup? name = env.lookup? name := by
  refine Option.ext fun value => ?_
  rw [lookup?_eq_some_iff, lookup?_eq_some_iff, h.perm_fork.mem_iff]

theorem showEntry_parseEntry {s : Bytes} (h : 61 ∈ s) : showEntry (parseEntry s) = s := by
  rw [parseEntry]
  cases hc : Bytes.cut 61 s with
  | none => exact absurd h (Bytes.cut_eq_none hc)
  | some pair =>
    rw [Bytes.eq_of_cut hc, Option.getD_some, showEntry, List.append_assoc]
    rfl

/-- Variables that are set in order are kept in the opposite order. -/
theorem sublist_addAll {listing : List Bytes} (h : ∀ s ∈ listing, 61 ∈ s) (env : Environment) :
    ((env.addAll listing).entries.map showEntry).reverse.Sublist
      ((env.entries.map showEntry).reverse ++ listing) := by
  induction listing generalizing env with
  | nil => simp [addAll]
  | cons s rest ih =>
    obtain ⟨hs, hrest⟩ := List.forall_mem_cons.mp h
    refine (ih hrest (env.set (parseEntry s).1 (parseEntry s).2)).trans ?_
    have hset : (((env.set (parseEntry s).1 (parseEntry s).2).entries.map showEntry).reverse).Sublist
        ((env.entries.map showEntry).reverse ++ [s]) := by
      simp only [set, List.map_cons, List.reverse_cons]
      rw [showEntry_parseEntry hs]
      exact List.Sublist.append ((List.filter_sublist.map _).reverse) (List.Sublist.refl _)
    simpa using hset.append (List.Sublist.refl rest)

theorem eq_of_entries {env env' : Environment} (h : env.entries = env'.entries) : env = env' := by
  cases env
  cases env'
  cases h
  rfl

/-- A fork of a fork is the same fork. -/
theorem fork_fork (env : Environment) : env.fork.fork = env.fork := by
  have hequals : ∀ s ∈ env.listing, 61 ∈ s := by
    intro s hs
    obtain ⟨entry, -, rfl⟩ := List.mem_map.mp ((List.mergeSort_perm _ _).mem_iff.mp hs)
    exact List.mem_append_left _ (List.mem_append_right _ (by decide))
  have hplain : env.fork.Plain := plain_ofListing _
  have hlisting : env.fork.listing = (env.fork.entries.map showEntry).reverse :=
    Bytes.sort_eq_of_perm (List.reverse_perm _).symm
      ((Bytes.pairwise_sort _).sublist (sublist_addAll hequals empty))
  have hparsed : env.fork.listing.map parseEntry = env.fork.entries.reverse := by
    rw [hlisting, ← List.map_reverse, List.map_map]
    refine (List.map_congr_left fun entry hm => ?_).trans (List.map_id _)
    exact parseEntry_showEntry (hplain entry (List.mem_reverse.mp hm))
  refine eq_of_entries ?_
  have hadded : env.fork.fork.entries = (env.fork.listing.map parseEntry).reverse ++ [] := by
    refine entries_addAll ?_
    rw [hparsed, show empty.entries = [] from rfl, List.append_nil, List.map_reverse]
    exact List.nodup_reverse.mpr env.fork.distinct
  rw [hadded, hparsed, List.reverse_reverse, List.append_nil]

end Environment

theorem Surroundings.fork_fork (here : Surroundings) : here.fork.fork = here.fork :=
  congrArg (Surroundings.mk here.dir) (Environment.fork_fork here.env)

theorem Surroundings.plain_enter {disk : Disk} {here moved : Surroundings} {target : Bytes}
    (h : here.env.Plain) (he : here.enter disk target = .ok moved) : moved.env.Plain := by
  unfold enter at he
  simp only at he
  split at he
  · cases he
  · split at he
    · cases he
      exact h.set (by decide) _
    · cases he

end CommandShell
