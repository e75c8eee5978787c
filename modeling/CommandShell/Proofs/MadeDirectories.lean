import CommandShell.Disk.Storage
import CommandShell.Proofs.CleanPath
import CommandShell.Proofs.NamelessContent
import Mathlib.Data.List.TakeWhile

/-! Directories that are made one below the other. Where the last of them is made there is nothing in
it, and a file that is put there is found by its name. -/
namespace CommandShell

/-- A table whose entry for a key is taken out and put in anew. -/
theorem find?_renewed {α β : Type} [DecidableEq α] [BEq α] [LawfulBEq α] (entries : List (α × β))
    (key other : α) (value : β) :
    (((key, value) :: entries.filter (·.1 != key)).find? (·.1 == other)).map Prod.snd =
      if other = key then some value else (entries.find? (·.1 == other)).map Prod.snd := by
  by_cases h : other = key
  · simp [h]
  · have hne : (key == other) = false := beq_eq_false_iff_ne.mpr (Ne.symm h)
    simp only [if_neg h, List.find?_cons, hne, List.find?_filter]
    congr 2
    funext entry
    by_cases he : entry.1 = other
    · simp [he, h]
    · simp [he]

namespace Disk
variable {d : Disk} {follow : Bool} {links : Nat} {here place : Place} {parts : List Bytes}
  {item : Item}

theorem item?_put (d : Disk) (place other : Place) (item : Item) :
    (d.put place item).item? other = if other = place then some item else d.item? other :=
  find?_renewed d.items place other item

/-! One step of a walk, in a directory. -/

section
variable {part : Bytes} {rest : List Bytes} {mode : Nat}
  (hdir : d.item? here = some (.directory mode))
include hdir

theorem walk_skip (hskip : (part.isEmpty || part == ".") = true) :
    d.walk follow links here (part :: rest) = d.walk follow links here rest := by
  rw [walk.eq_def, hdir]
  simp only [hskip, if_true]

variable (hskip : ¬ (part.isEmpty || part == ".") = true)
include hskip

theorem walk_up (hup : (part == "..") = true) :
    d.walk follow links here (part :: rest) = d.walk follow links here.dropLast rest := by
  rw [walk.eq_def, hdir]
  simp only [hskip, Bool.false_eq_true, hup, if_true, if_false]

variable (hup : ¬ (part == "..") = true) (hlong : ¬ part.length > nameLimit)
include hup hlong

theorem walk_free (hnone : d.item? (here ++ [part]) = none) (hrest : rest.all (·.isEmpty) = true) :
    d.walk follow links here (part :: rest) = .ok (.free (here ++ [part])) := by
  rw [walk.eq_def, hdir]
  simp only [hskip, Bool.false_eq_true, hup, hlong, hnone, hrest, if_true, if_false]

theorem walk_name (hitem : d.item? (here ++ [part]) = some item)
    (hlink : ∀ target, item ≠ .link target) :
    d.walk follow links here (part :: rest) = d.walk follow links (here ++ [part]) rest := by
  rw [walk.eq_def, hdir]
  simp only [hskip, Bool.false_eq_true, hup, hlong, hitem, if_false]

variable {target : Bytes} (hlink : d.item? (here ++ [part]) = some (.link target))
include hlink

theorem walk_last (hlast : (rest.isEmpty && !follow) = true) :
    d.walk follow links here (part :: rest) = .ok (.item (here ++ [part]) (.link target)) := by
  rw [walk.eq_def, hdir]
  simp only [hskip, Bool.false_eq_true, hup, hlong, hlink, hlast, if_true, if_false]

theorem walk_link (hlast : ¬ (rest.isEmpty && !follow) = true) :
    d.walk follow (links + 1) here (part :: rest) =
      d.walk follow links (if Path.isAbsolute target then [] else here)
        (Bytes.splitOn 47 target ++ rest) := by
  rw [walk.eq_def, hdir]
  simp only [hskip, Bool.false_eq_true, hup, hlong, hlink, hlast, if_false]

end

/-- What a walk leads to is there. -/
theorem item?_of_walk (h : d.walk follow links here parts = .ok (.item place item)) :
    d.item? place = some item := by
  fun_induction d.walk follow links here parts <;> simp_all

/-- A name that is free is free in a directory. -/
theorem free_of_walk (h : d.walk follow links here parts = .ok (.free place)) :
    d.item? place = none ∧ ∃ above name mode, place = above ++ [name] ∧
      d.item? above = some (.directory mode) := by
  fun_induction d.walk follow links here parts with
  | case3 _ _ _ _ _ _ _ ih | case4 _ _ _ _ _ _ _ _ ih | case10 _ _ _ _ _ _ _ _ _ _ _ _ _ ih
  | case11 _ _ _ _ _ _ _ _ _ _ _ _ _ ih => exact ih h
  | case6 links here part rest mode hdir _ _ _ next hnone =>
    obtain rfl : next = place := by simpa using h
    exact ⟨hnone, here, part, mode, rfl, hdir⟩
  | _ => simp at h

/-- A walk goes on from where its first part leads. -/
theorem walk_append {a b : List Bytes} (h : d.walk true links here a = .ok (.item place item))
    (hb : b ≠ []) :
    ∃ links', ∀ follow, d.walk follow links here (a ++ b) = d.walk follow links' place b := by
  fun_induction d.walk true links here a with
  | case2 links here item hitem =>
    cases h
    exact ⟨links, fun _ => rfl⟩
  | case3 links here part rest mode hdir hskip ih =>
    obtain ⟨links', hrest⟩ := ih h
    exact ⟨links', fun follow => (walk_skip hdir hskip).trans (hrest follow)⟩
  | case4 links here part rest mode hdir hskip hup ih =>
    obtain ⟨links', hrest⟩ := ih h
    exact ⟨links', fun follow => (walk_up hdir hskip hup).trans (hrest follow)⟩
  | case10 here part rest mode hdir hskip hup hlong next target hlink hlast links ih =>
    obtain ⟨links', hrest⟩ := ih h
    refine ⟨links', fun follow => ?_⟩
    rw [← hrest, List.append_assoc]
    exact walk_link hdir hskip hup hlong hlink (by simp [hb])
  | case11 links here part rest mode hdir hskip hup hlong next item' hlink hitem ih =>
    obtain ⟨links', hrest⟩ := ih h
    exact ⟨links', fun follow => (walk_name hdir hskip hup hlong hitem hlink).trans (hrest follow)⟩
  | case8 _ _ _ _ _ _ _ _ _ _ _ _ hfinal => simp at hfinal
  | _ => simp at h

/-- Empty parts lead nowhere else than to the directory one is in. -/
theorem walk_empty {mode : Nat} (hdir : d.item? here = some (.directory mode))
    (hp : parts.all (·.isEmpty) = true) :
    d.walk follow links here parts = .ok (.item here (.directory mode)) := by
  induction parts with
  | nil => rw [walk.eq_def, hdir]
  | cons part rest ih =>
    obtain ⟨hpart, hrest⟩ := Bool.and_eq_true_iff.mp hp
    rw [walk.eq_def, hdir]
    simp only [hpart, Bool.true_or, if_true]
    exact ih hrest

section
variable {new : Place} (hnew : d.item? new = none)
include hnew

theorem item?_put_of_item (other : Item) {place : Place} {item : Item}
    (h : d.item? place = some item) : (d.put new other).item? place = some item := by
  rw [item?_put, if_neg]
  · exact h
  · rintro rfl
    rw [hnew] at h
    cases h

/-- What is put where nothing was is in nobody's way. -/
theorem walk_put_of_item (other : Item)
    (h : d.walk follow links here parts = .ok (.item place item)) :
    (d.put new other).walk follow links here parts = .ok (.item place item) := by
  have hput {place : Place} {item : Item} (h : d.item? place = some item) :=
    item?_put_of_item hnew other h
  fun_induction d.walk follow links here parts with
  | case2 links here item hitem =>
    rw [walk.eq_def, hput hitem]
    exact h
  | case3 _ _ _ _ _ hdir hskip ih =>
    rw [walk_skip (hput hdir) hskip]
    exact ih h
  | case4 _ _ _ _ _ hdir hskip hup ih =>
    rw [walk_up (hput hdir) hskip hup]
    exact ih h
  | case8 _ _ _ _ _ hdir hskip hup hlong _ _ hlink hlast =>
    rw [walk_last (hput hdir) hskip hup hlong (hput hlink) hlast]
    exact h
  | case10 _ _ _ _ hdir hskip hup hlong _ _ hlink hlast _ ih =>
    rw [walk_link (hput hdir) hskip hup hlong (hput hlink) hlast]
    exact ih h
  | case11 _ _ _ _ _ hdir hskip hup hlong _ _ hother hitem ih =>
    rw [walk_name (hput hdir) hskip hup hlong (hput hitem) fun target he => hother target he]
    exact ih h
  | _ => simp at h

/-- A directory that is put at a free name is where the walk leads. -/
theorem walk_put_of_free (mode : Nat)
    (h : d.walk follow links here parts = .ok (.free new)) :
    (d.put new (.directory mode)).walk true links here parts =
      .ok (.item new (.directory mode)) := by
  have hput {place : Place} {item : Item} (h : d.item? place = some item) :=
    item?_put_of_item hnew (.directory mode) h
  fun_induction d.walk follow links here parts with
  | case3 _ _ _ _ _ hdir hskip ih =>
    rw [walk_skip (hput hdir) hskip]
    exact ih h
  | case4 _ _ _ _ _ hdir hskip hup ih =>
    rw [walk_up (hput hdir) hskip hup]
    exact ih h
  | case6 _ _ part rest _ hdir hskip hup hlong next _ hempty =>
    obtain rfl : next = new := by simpa using h
    have hself : (d.put next (.directory mode)).item? next = some (.directory mode) := by
      rw [item?_put, if_pos rfl]
    rw [walk_name (hput hdir) hskip hup hlong hself (by simp)]
    exact walk_empty hself hempty
  | case10 _ _ _ _ hdir hskip hup hlong _ _ hlink _ _ ih =>
    rw [walk_link (hput hdir) hskip hup hlong (hput hlink) (by simp)]
    exact ih h
  | case11 _ _ _ _ _ hdir hskip hup hlong _ _ hother hitem ih =>
    rw [walk_name (hput hdir) hskip hup hlong (hput hitem) fun target he => hother target he]
    exact ih h
  | _ => simp at h

end

/-! Parts of a path that mean nothing. -/

/-- A part that is not empty and does not stand for the directory itself. -/
def counts (part : Bytes) : Bool := !(part.isEmpty || part == ".")

/-- Some parts that do not count are left out. -/
inductive Thinned : List Bytes → List Bytes → Prop
  | nil : Thinned [] []
  | keep (part : Bytes) {a b : List Bytes} (h : Thinned a b) : Thinned (part :: a) (part :: b)
  | drop {part : Bytes} {a b : List Bytes} (hp : (part.isEmpty || part == ".") = true)
      (h : Thinned a b) : Thinned (part :: a) b

theorem Thinned.append {a b : List Bytes} (h : Thinned a b) (c : List Bytes) :
    Thinned (c ++ a) (c ++ b) := by
  induction c with
  | nil => exact h
  | cons part c ih => exact .keep part ih

theorem thinned_filter (parts : List Bytes) : Thinned parts (parts.filter counts) := by
  induction parts with
  | nil => exact .nil
  | cons part parts ih =>
    cases hp : part.isEmpty || part == "." with
    | true =>
      rw [List.filter_cons_of_neg (by simp [counts, hp])]
      exact .drop hp ih
    | false =>
      rw [List.filter_cons_of_pos (by simp [counts, hp])]
      exact .keep part ih

/-- They can be left out when something is found. -/
theorem walk_thinned (h : d.walk true links here parts = .ok (.item place item)) :
    ∀ parts', Thinned parts parts' → d.walk true links here parts' = .ok (.item place item) := by
  fun_induction d.walk true links here parts with
  | case2 links here item hitem =>
    rintro _ ⟨⟩
    rw [walk.eq_def, hitem]
    exact h
  | case3 _ _ _ _ _ hdir hskip ih =>
    rintro _ (_ | ⟨_, ht⟩ | ⟨_, ht⟩)
    · rw [walk_skip hdir hskip]
      exact ih h _ ht
    · exact ih h _ ht
  | case4 _ _ _ _ _ hdir hskip hup ih =>
    rintro _ (_ | ⟨_, ht⟩ | ⟨hp, -⟩)
    · rw [walk_up hdir hskip hup]
      exact ih h _ ht
    · exact absurd hp hskip
  | case8 _ _ _ _ _ _ _ _ _ _ _ _ hlast => simp at hlast
  | case10 _ _ _ _ hdir hskip hup hlong _ _ hlink _ _ ih =>
    rintro _ (_ | ⟨_, ht⟩ | ⟨hp, -⟩)
    · rw [walk_link hdir hskip hup hlong hlink (by simp)]
      exact ih h _ (ht.append _)
    · exact absurd hp hskip
  | case11 _ _ _ _ _ hdir hskip hup hlong _ _ hother hitem ih =>
    rintro _ (_ | ⟨_, ht⟩ | ⟨hp, -⟩)
    · rw [walk_name hdir hskip hup hlong hitem fun target he => hother target he]
      exact ih h _ ht
    · exact absurd hp hskip
  | _ => simp at h

theorem follow_eq_filter {kept parts : List Bytes} (hslash : ∀ part ∈ parts, 47 ∉ part)
    (hup : (".." : Bytes) ∉ parts) :
    (Path.follow kept parts).reverse = kept.reverse ++ parts.filter counts := by
  induction parts generalizing kept with
  | nil => simp [Path.follow]
  | cons part parts ih =>
    obtain ⟨hpart, hparts⟩ := List.forall_mem_cons.mp hslash
    rw [List.mem_cons, not_or] at hup
    rw [Path.follow, List.foldl_cons, ← Path.follow]
    rcases Path.part_cases hpart with h | rfl | h
    · rw [Path.place_none h, ih hparts hup.2, List.filter_cons_of_neg]
      rcases h with rfl | rfl <;> decide
    · exact absurd rfl hup.1
    · rw [Path.place_name h, ih hparts hup.2, List.filter_cons_of_pos]
      · simp
      · simpa [counts] using ⟨h.ne_nil, h.ne_self⟩

/-- The names of a path that never goes up are the parts that count. -/
theorem names_eq_filter {path : Bytes} (hup : (".." : Bytes) ∉ Bytes.splitOn 47 path) :
    Path.names path = (Bytes.splitOn 47 path).filter counts :=
  follow_eq_filter (fun _ => Bytes.not_mem_of_mem_splitOn) hup

/-- Everything is in a directory. -/
def Grounded (d : Disk) : Prop :=
  ∀ place name, d.item? (place ++ [name]) ≠ none → ∃ mode, d.item? place = some (.directory mode)

theorem Grounded.empty {new : Place} (hg : d.Grounded) (hnew : d.item? new = none) (name : Bytes) :
    d.item? (new ++ [name]) = none := by
  by_contra hsome
  obtain ⟨mode, hdir⟩ := hg new name hsome
  rw [hnew] at hdir
  cases hdir

theorem Grounded.put {above : Place} {name : Bytes} {mode : Nat} (hg : d.Grounded)
    (hdir : d.item? above = some (.directory mode)) (hnew : d.item? (above ++ [name]) = none)
    (item : Item) : (d.put (above ++ [name]) item).Grounded := by
  intro place other hsome
  rw [item?_put] at hsome
  split at hsome
  · next he =>
    obtain ⟨rfl, -⟩ := List.append_inj' he rfl
    exact ⟨mode, item?_put_of_item hnew item hdir⟩
  · obtain ⟨mode', hplace⟩ := hg place other hsome
    exact ⟨mode', item?_put_of_item hnew item hplace⟩

/-- Something that is no link is found whether links are gone through or not. -/
theorem walk_follow (h : d.walk false links here parts = .ok (.item place item))
    (hi : ∀ target, item ≠ .link target) :
    d.walk true links here parts = .ok (.item place item) := by
  fun_induction d.walk false links here parts with
  | case2 links here item hitem =>
    rw [walk.eq_def, hitem]
    exact h
  | case3 _ _ _ _ _ hdir hskip ih =>
    rw [walk_skip hdir hskip]
    exact ih h
  | case4 _ _ _ _ _ hdir hskip hup ih =>
    rw [walk_up hdir hskip hup]
    exact ih h
  | case8 _ _ _ _ _ _ _ _ _ _ target =>
    simp only [Except.ok.injEq, Found.item.injEq] at h
    exact absurd h.2.symm (hi target)
  | case10 _ _ _ _ hdir hskip hup hlong _ _ hlink _ _ ih =>
    rw [walk_link hdir hskip hup hlong hlink (by simp)]
    exact ih h
  | case11 _ _ _ _ _ hdir hskip hup hlong _ _ hother hitem ih =>
    rw [walk_name hdir hskip hup hlong hitem fun target he => hother target he]
    exact ih h
  | _ => simp at h

section
variable {cwd : Place} {path : Bytes}

/-- A path that the system takes. -/
def Takes (path : Bytes) : Prop := 0 ∉ path ∧ path ≠ [] ∧ path.length ≤ pathLimit

/-- Where a path starts. -/
def origin (cwd : Place) (path : Bytes) : Place := if Path.isAbsolute path then [] else cwd

theorem find_eq_ok_iff {found : Found} :
    d.find follow cwd path = .ok found ↔
      Takes path ∧ d.walk follow linkLimit (origin cwd path) (Bytes.splitOn 47 path) = .ok found := by
  unfold find Takes origin
  split
  · next h => simp [List.contains_iff_mem.mp h]
  · next h0 =>
    have h0 : 0 ∉ path := fun hm => h0 (List.contains_iff_mem.mpr hm)
    split
    · next h => simp [List.isEmpty_iff.mp h]
    · next hne =>
      split
      · next h => simp [Nat.not_le.mpr h]
      · next hlong => simp [h0, Nat.le_of_not_lt hlong, mt List.isEmpty_iff.mpr hne]

theorem stat_eq_ok_iff :
    d.stat cwd path = .ok (place, item) ↔ d.find true cwd path = .ok (.item place item) := by
  unfold stat
  split <;> simp_all

theorem splitOn_slashes {last slashes : Bytes} (hl : 47 ∉ last) (hs : ∀ b ∈ slashes, b = 47) :
    ∃ empties, empties.all (·.isEmpty) = true ∧
      Bytes.splitOn 47 (last ++ slashes) = last :: empties := by
  induction slashes generalizing last with
  | nil => exact ⟨[], rfl, by rw [List.append_nil, Bytes.splitOn_of_not_mem hl]⟩
  | cons b slashes ih =>
    obtain ⟨rfl, hslashes⟩ := List.forall_mem_cons.mp hs
    obtain ⟨empties, hempty, hsplit⟩ := ih List.not_mem_nil hslashes
    refine ⟨[] :: empties, by simpa using hempty, ?_⟩
    rw [Bytes.splitOn_append, Bytes.splitOn_of_not_mem hl, ← List.nil_append slashes, hsplit]
    rfl

/-- A path falls into the path above it and its last part. -/
theorem parts_of_above {parent : Bytes} (h : above? path = some parent) :
    Path.isAbsolute parent = Path.isAbsolute path ∧ ∃ last empties, 47 ∉ last ∧
      empties.all (·.isEmpty) = true ∧
      Bytes.splitOn 47 path = Bytes.splitOn 47 parent ++ last :: empties := by
  unfold above? at h
  simp only [Option.ite_none_right_eq_some, Option.some.injEq] at h
  obtain ⟨hlen, rfl⟩ := h
  -- Backwards: slashes at the end, the last part, a slash, and the path above.
  have hend := List.takeWhile_append_dropWhile (p := (· == 47)) (l := path.reverse)
  have hslashes : ∀ b ∈ path.reverse.takeWhile (· == 47), b = 47 := fun b hb => by
    simpa using List.mem_takeWhile_imp hb
  generalize path.reverse.takeWhile (· == 47) = slashes at hend hslashes
  generalize path.reverse.dropWhile (· == 47) = rest at *
  have hrest := List.takeWhile_append_dropWhile (p := (· != 47)) (l := rest)
  have hlast : 47 ∉ rest.takeWhile (· != 47) := fun hm => by
    simpa using List.mem_takeWhile_imp hm
  have hhead := List.head?_dropWhile_not (· != 47) rest
  generalize rest.takeWhile (· != 47) = last at hrest hlast
  generalize rest.dropWhile (· != 47) = named at *
  cases named with
  | nil => simp at hlen
  | cons c parent =>
    obtain rfl : c = 47 := by simpa using hhead
    have hpath : path = parent.reverse ++ 47 :: (last.reverse ++ slashes.reverse) := by
      rw [← List.reverse_reverse path, ← hend, ← hrest]
      simp
    have hlast' : 47 ∉ last.reverse := by simpa using hlast
    have hslashes' : ∀ b ∈ slashes.reverse, b = 47 := fun b hb => hslashes b (List.mem_reverse.mp hb)
    obtain ⟨empties, hempty, hsplit⟩ := splitOn_slashes hlast' hslashes'
    refine ⟨?_, last.reverse, empties, hlast', hempty, ?_⟩
    · rw [hpath, List.tail_cons]
      obtain ⟨b, above, habove⟩ := List.exists_cons_of_ne_nil (l := parent.reverse) (by
        rintro he
        simp [List.reverse_eq_nil_iff.mp he] at hlen)
      rw [habove]
      rfl
    · rw [hpath, Bytes.splitOn_append, hsplit, List.tail_cons]

end

/-! Making directories. -/

/-- What making directories leaves: the last of them, with nothing in it unless nothing was made. -/
structure Made (d made : Disk) (cwd : Place) (path : Bytes) : Prop where
  grounded : made.Grounded
  found : ∃ place mode, made.stat cwd path = .ok (place, .directory mode) ∧
    (made = d ∨ ∀ name, made.item? (place ++ [name]) = none)

section
variable {cwd : Place} {path : Bytes} {made : Disk}

/-- One more directory is made, in one that exists. -/
theorem Made.of_makeDirectory {mode : Nat} {next : Disk} (hg : made.Grounded)
    (h : made.makeDirectory mode cwd path = .ok next) : Made d next cwd path := by
  unfold makeDirectory at h
  split at h
  · cases h
  · next new hfind =>
    cases h
    obtain ⟨htakes, hwalk⟩ := find_eq_ok_iff.mp hfind
    obtain ⟨hnew, above, name, up, rfl, hdir⟩ := free_of_walk hwalk
    refine ⟨hg.put hdir hnew _, above ++ [name], mode, ?_, .inr fun other => ?_⟩
    · exact stat_eq_ok_iff.mpr (find_eq_ok_iff.mpr ⟨htakes, walk_put_of_free hnew mode hwalk⟩)
    · rw [item?_put, if_neg (by simp)]
      exact hg.empty hnew other
  · cases h

/-- A directory that is there already, below one that was made, is that one. -/
theorem Made.of_found {parent : Bytes} {mode : Nat} (h : Made d made cwd parent)
    (habove : above? path = some parent) (hup : (".." : Bytes) ∉ Bytes.splitOn 47 path)
    (hfind : made.find false cwd path = .ok (.item place (.directory mode))) :
    Made d made cwd path := by
  obtain ⟨htakes, hwalk⟩ := find_eq_ok_iff.mp hfind
  have hstat : made.stat cwd path = .ok (place, .directory mode) :=
    stat_eq_ok_iff.mpr (find_eq_ok_iff.mpr ⟨htakes, walk_follow hwalk (by simp)⟩)
  refine ⟨h.grounded, place, mode, hstat, ?_⟩
  obtain ⟨above, up, habovestat, hsame | hempty⟩ := h.found
  · exact .inl hsame
  obtain ⟨habs, last, empties, hslash, hempties, hparts⟩ := parts_of_above habove
  have hfrom : origin cwd parent = origin cwd path := by rw [origin, origin, habs]
  obtain ⟨-, habovewalk⟩ := find_eq_ok_iff.mp (stat_eq_ok_iff.mp habovestat)
  obtain ⟨links', hrest⟩ := walk_append habovewalk (List.cons_ne_nil last empties)
  rw [hparts, ← hfrom, hrest] at hwalk
  have hdir := item?_of_walk habovewalk
  right
  by_cases hskip : (last.isEmpty || last == ".") = true
  · rw [walk_skip hdir hskip, walk_empty hdir hempties] at hwalk
    cases hwalk
    exact hempty
  · -- A name cannot be found in a directory that has nothing in it.
    have hparent : ¬ (last == "..") = true := by
      intro he
      refine hup ?_
      rw [hparts, ← eq_of_beq he]
      simp
    by_cases hlong : last.length > nameLimit
    · rw [walk.eq_def, hdir] at hwalk
      simp [hskip, hparent, hlong] at hwalk
    · rw [walk_free hdir hskip hparent hlong (hempty last) hempties] at hwalk
      cases hwalk

/-- The last directory is made, or it is there. -/
theorem Made.of_last {mid : Disk} (hm : mid.Grounded)
    (h : (match mid.makeDirectory 0o700 cwd path with
      | .ok d => Except.ok d
      | .error e =>
        match mid.find false cwd path with
        | .ok (.item _ (.directory _)) => .ok mid
        | _ => .error (failure "mkdir" path e)) = .ok made) :
    Made d made cwd path ∨ mid = made ∧ ∃ place mode,
      mid.find false cwd path = .ok (.item place (.directory mode)) := by
  split at h
  · next hmake =>
    cases h
    exact .inl (.of_makeDirectory hm hmake)
  · split at h
    · next place mode hfind =>
      cases h
      exact .inr ⟨rfl, place, mode, hfind⟩
    · cases h

theorem Made.of_makeDirectories {n : Nat} (hg : d.Grounded)
    (hup : (".." : Bytes) ∉ Bytes.splitOn 47 path) (h : makeDirectories cwd n path d = .ok made) :
    Made d made cwd path := by
  induction n generalizing path made with
  | zero => cases h
  | succ n ih =>
    unfold makeDirectories at h
    split at h
    · next place item hstat =>
      split at h
      · next hdir =>
        cases h
        cases item with
        | directory mode => exact ⟨hg, place, mode, hstat, .inl rfl⟩
        | file | link | null => cases hdir
      · cases h
    · next e hstat =>
      cases habove : above? path with
      | none =>
        rw [habove] at h
        rcases Made.of_last hg h with hmade | ⟨rfl, place, mode, hfind⟩
        · exact hmade
        · obtain ⟨htakes, hwalk⟩ := find_eq_ok_iff.mp hfind
          exact ⟨hg, place, mode, stat_eq_ok_iff.mpr (find_eq_ok_iff.mpr
            ⟨htakes, walk_follow hwalk (by simp)⟩), .inl rfl⟩
      | some parent =>
        rw [habove] at h
        dsimp only at h
        cases hparent : makeDirectories cwd n parent d with
        | error failure =>
          rw [hparent] at h
          cases h
        | ok mid =>
          rw [hparent] at h
          obtain ⟨-, last, empties, -, -, hparts⟩ := parts_of_above habove
          have hmid : Made d mid cwd parent := by
            refine ih (fun hm => hup ?_) hparent
            rw [hparts]
            exact List.mem_append_left _ hm
          rcases Made.of_last hmid.grounded h with hmade | ⟨rfl, place, mode, hfind⟩
          · exact hmade
          · exact hmid.of_found habove hup hfind

end

/-! A file in a directory that was made. -/

section
variable {cwd : Place} {path data : Bytes} {d' : Disk}

theorem openPath_new {mode : Nat} {opened : Stream × Disk}
    (hfree : ∀ place item, d.find true cwd path ≠ .ok (.item place item))
    (h : d.openPath (.replace mode) cwd path = .ok opened) :
    ∃ new, d.find true cwd path = .ok (.free new) ∧ opened = d.openNew mode new := by
  unfold openPath at h
  simp only at h
  split at h
  · split at h <;> cases h
  · split at h
    · cases h
    · next place item hfind => exact absurd hfind (hfree place item)
    · next new hfind =>
      cases h
      exact ⟨new, hfind, rfl⟩

/-- Writing where nothing is puts a new file there. -/
theorem write_new (hfree : ∀ place item, d.find true cwd path ≠ .ok (.item place item))
    (h : (storage cwd).write path data d = .ok d') :
    ∃ new id, d.find true cwd path = .ok (.free new) ∧
      d'.items = (d.put new (.file 0o600 id)).items ∧ d'.content id = data := by
  have hupdate : d.update (.replace 0o600) (fun _ => data) cwd path = .ok d' := h
  unfold update at hupdate
  cases hopen : d.openPath (.replace 0o600) cwd path with
  | error e =>
    rw [hopen] at hupdate
    cases hupdate
  | ok opened =>
    obtain ⟨new, hfind, rfl⟩ := openPath_new hfree hopen
    rw [hopen] at hupdate
    cases hupdate
    refine ⟨new, d.contents.length, hfind, rfl, ?_⟩
    simp [content, setContent, putFile, addContent, put, erase]

end

section
variable {cwd : Place} {dir name : Bytes} {made : Disk}
  (habs : Path.isAbsolute dir = true) (hup : (".." : Bytes) ∉ Bytes.splitOn 47 dir)
include habs hup

omit hup in
/-- The path of a name in a directory has the names of the directory and that name for its parts. -/
theorem splitOn_join_name (hn : Path.IsName name) :
    Bytes.splitOn 47 (Path.join [dir, name]) = ([] :: Path.names dir) ++ [name] := by
  have hslash : ∀ part ∈ Path.names dir ++ [name], 47 ∉ part := by
    intro part hm
    rcases List.mem_append.mp hm with hm | hm
    · exact (Path.isName_of_mem_names hm).slash
    · exact List.mem_singleton.mp hm ▸ hn.slash
  rw [Path.join_name habs hn, Path.splitOn_path hslash, if_neg (by simp)]
  rfl

/-- A directory is found by its names, too. -/
theorem walk_names_of_stat {mode : Nat} (h : d.stat cwd dir = .ok (place, .directory mode)) :
    d.walk true linkLimit [] ([] :: Path.names dir) = .ok (.item place (.directory mode)) := by
  obtain ⟨-, hwalk⟩ := find_eq_ok_iff.mp (stat_eq_ok_iff.mp h)
  rw [origin, if_pos habs] at hwalk
  rw [names_eq_filter hup]
  obtain ⟨s, rfl⟩ := Path.isAbsolute_iff.mp habs
  rw [Bytes.splitOn_cons_sep] at hwalk ⊢
  exact walk_thinned hwalk _ (.keep [] (thinned_filter _))

theorem Made.free (hm : Made d made cwd dir) (hn : Path.IsName name) (hlen : name.length ≤ nameLimit)
    (htakes : Takes (Path.join [dir, name]))
    (hnone : ∀ place item, d.find false cwd (Path.join [dir, name]) ≠ .ok (.item place item)) :
    ∃ place mode, made.item? (place ++ [name]) = none ∧
      made.walk true linkLimit [] ([] :: Path.names dir) = .ok (.item place (.directory mode)) ∧
      made.find true cwd (Path.join [dir, name]) = .ok (.free (place ++ [name])) := by
  obtain ⟨place, mode, hstat, hinside⟩ := hm.found
  have hwalk := walk_names_of_stat habs hup hstat
  have hdir := item?_of_walk hwalk
  have hskip : ¬ (name.isEmpty || name == ".") = true := by
    simpa using ⟨hn.ne_nil, hn.ne_self⟩
  have hparent : ¬ (name == "..") = true := by simpa using hn.ne_parent
  obtain ⟨links', hrest⟩ := walk_append hwalk (List.cons_ne_nil name [])
  have hfind (follow : Bool) {found : Found} (h : made.walk follow links' place [name] = .ok found) :
      made.find follow cwd (Path.join [dir, name]) = .ok found := by
    rw [find_eq_ok_iff, origin, if_pos (Path.isAbsolute_join habs),
      splitOn_join_name habs hn, hrest]
    exact ⟨htakes, h⟩
  have hempty : made.item? (place ++ [name]) = none := by
    rcases hinside with rfl | hempty
    · by_contra hsome
      obtain ⟨item, hitem⟩ := Option.ne_none_iff_exists'.mp hsome
      refine hnone (place ++ [name]) item (hfind false ?_)
      cases item with
      | link target => exact walk_last hdir hskip hparent (Nat.not_lt.mpr hlen) hitem rfl
      | directory | file | null =>
        rw [walk_name hdir hskip hparent (Nat.not_lt.mpr hlen) hitem (by simp), walk.eq_def, hitem]
    · exact hempty name
  exact ⟨place, mode, hempty, hwalk,
    hfind true (walk_free hdir hskip hparent (Nat.not_lt.mpr hlen) hempty rfl)⟩

omit hup in
/-- What is put at a name in a directory is found there. -/
theorem stat_of_put {mode : Nat} (hn : Path.IsName name) (hlen : name.length ≤ nameLimit)
    (htakes : Takes (Path.join [dir, name])) (hempty : d.item? (place ++ [name]) = none)
    (hwalk : d.walk true linkLimit [] ([] :: Path.names dir) = .ok (.item place (.directory mode)))
    (new : Item) (hlink : ∀ target, new ≠ .link target) :
    (d.put (place ++ [name]) new).stat cwd (Path.join [dir, name]) = .ok (place ++ [name], new) := by
  have hskip : ¬ (name.isEmpty || name == ".") = true := by
    simpa using ⟨hn.ne_nil, hn.ne_self⟩
  have hparent : ¬ (name == "..") = true := by simpa using hn.ne_parent
  have hput := walk_put_of_item hempty new hwalk
  have hself : (d.put (place ++ [name]) new).item? (place ++ [name]) = some new := by
    rw [item?_put, if_pos rfl]
  obtain ⟨links', hrest⟩ := walk_append hput (List.cons_ne_nil name [])
  rw [stat_eq_ok_iff, find_eq_ok_iff, origin, if_pos (Path.isAbsolute_join habs),
    splitOn_join_name habs hn, hrest,
    walk_name (item?_of_walk hput) hskip hparent (Nat.not_lt.mpr hlen) hself hlink, walk.eq_def, hself]
  exact ⟨htakes, rfl⟩

/-- Where nothing was there is nothing after the directories are made, and what is written there is read
back. -/
theorem Made.read_written (hm : Made d made cwd dir) (hn : Path.IsName name)
    (hlen : name.length ≤ nameLimit)
    (hnone : ∀ place item, d.find false cwd (Path.join [dir, name]) ≠ .ok (.item place item)) :
    (storage cwd).contains (Path.join [dir, name]) made ≠ .ok true ∧
    ∀ data d', (storage cwd).write (Path.join [dir, name]) data made = .ok d' →
      (storage cwd).read (Path.join [dir, name]) d' = .ok data := by
  have hfree := hm.free habs hup hn hlen
  have hnoitem : ∀ place item, made.find true cwd (Path.join [dir, name]) ≠ .ok (.item place item) := by
    intro place item hitem
    obtain ⟨_, _, -, -, hfind⟩ := hfree (find_eq_ok_iff.mp hitem).1 hnone
    rw [hfind] at hitem
    cases hitem
  constructor
  · intro h
    simp only [storage] at h
    split at h
    · next found hstat => exact hnoitem _ _ (stat_eq_ok_iff.mp hstat)
    · cases h
    · cases h
  · intro data d' h
    obtain ⟨new, id, hnew, hitems, hcontent⟩ := write_new hnoitem h
    have htakes := (find_eq_ok_iff.mp hnew).1
    obtain ⟨place, mode, hempty, hwalk, hfind⟩ := hfree htakes hnone
    obtain rfl : new = place ++ [name] := by simpa [hnew] using hfind
    have hstat : d'.stat cwd (Path.join [dir, name]) = .ok (place ++ [name], .file 0o600 id) := by
      rw [stat_eq_of_items hitems]
      exact stat_of_put habs hn hlen htakes hempty hwalk _ (by simp)
    simp only [storage, readFileAt, readFile, hstat, hcontent]

end

end Disk

end CommandShell
