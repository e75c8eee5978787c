import CommandShell.Disk
import Mathlib.Data.List.Flatten

/-! Clean paths. A rooted path has the names that are left when its parent references are carried out,
its clean form is those names below the root, and cleaning changes a clean path no more. -/
namespace CommandShell

namespace Bytes
variable {sep : UInt8}

theorem splitOn_cons_sep (s : Bytes) : splitOn sep (sep :: s) = [] :: splitOn sep s := by
  simp [splitOn]

theorem exists_splitOn (sep : UInt8) (s : Bytes) : ∃ first rest, splitOn sep s = first :: rest := by
  refine List.exists_cons_of_ne_nil ?_
  induction s with
  | nil => simp [splitOn]
  | cons b s ih =>
    rw [splitOn, List.foldr_cons, ← splitOn]
    split
    · simp
    · split <;> simp

/-- The first part of a text that does not start with the separator starts with its first byte. -/
theorem splitOn_cons {b : UInt8} (h : b ≠ sep) {s part : Bytes} {rest : List Bytes}
    (hs : splitOn sep s = part :: rest) : splitOn sep (b :: s) = (b :: part) :: rest := by
  rw [splitOn, List.foldr_cons, ← splitOn, if_neg h, hs]

theorem splitOn_append (a b : Bytes) :
    splitOn sep (a ++ sep :: b) = splitOn sep a ++ splitOn sep b := by
  induction a with
  | nil => exact splitOn_cons_sep b
  | cons c a ih =>
    by_cases hc : c = sep
    · subst hc
      rw [List.cons_append, splitOn_cons_sep, splitOn_cons_sep, ih, List.cons_append]
    · obtain ⟨part, rest, hs⟩ := exists_splitOn sep a
      rw [hs, List.cons_append] at ih
      rw [List.cons_append, splitOn_cons hc ih, splitOn_cons hc hs, List.cons_append]

theorem splitOn_of_not_mem {s : Bytes} (h : sep ∉ s) : splitOn sep s = [s] := by
  induction s with
  | nil => rfl
  | cons b s ih =>
    rw [List.mem_cons, not_or] at h
    exact splitOn_cons (Ne.symm h.1) (ih h.2)

theorem not_mem_of_mem_splitOn {s part : Bytes} (h : part ∈ splitOn sep s) : sep ∉ part := by
  induction s generalizing part with
  | nil =>
    obtain rfl : part = [] := by simpa [splitOn] using h
    simp
  | cons b s ih =>
    by_cases hb : b = sep
    · subst hb
      rw [splitOn_cons_sep, List.mem_cons] at h
      rcases h with rfl | h
      · simp
      · exact ih h
    · obtain ⟨first, rest, hs⟩ := exists_splitOn sep s
      rw [splitOn_cons hb hs, List.mem_cons] at h
      rcases h with rfl | h
      · have hfirst : sep ∉ first := ih (by simp [hs])
        simpa [hfirst] using Ne.symm hb
      · exact ih (by simp [hs, h])

/-- The parts, each behind a separator, are the whole text behind one. -/
theorem flatMap_splitOn (sep : UInt8) (s : Bytes) :
    (splitOn sep s).flatMap (sep :: ·) = sep :: s := by
  induction s with
  | nil => rfl
  | cons b s ih =>
    by_cases hb : b = sep
    · subst hb
      rw [splitOn_cons_sep, List.flatMap_cons, ih]
      rfl
    · obtain ⟨first, rest, hs⟩ := exists_splitOn sep s
      rw [hs, List.flatMap_cons, List.cons_append, List.cons_inj_right] at ih
      rw [splitOn_cons hb hs, List.flatMap_cons, List.cons_append, List.cons_append, ih]

theorem join_cons {name : Bytes} {ns : List Bytes} (h : ns ≠ []) :
    join [sep] (name :: ns) = name ++ sep :: join [sep] ns := by
  obtain ⟨next, rest, rfl⟩ := List.exists_cons_of_ne_nil h
  exact List.append_assoc name [sep] _

theorem cons_join {ns : List Bytes} (h : ns ≠ []) :
    sep :: join [sep] ns = ns.flatMap (sep :: ·) := by
  induction ns with
  | nil => exact absurd rfl h
  | cons name ns ih =>
    cases ns with
    | nil => simp [join]
    | cons next ns =>
      rw [join_cons (by simp), ih (by simp)]
      rfl

/-- Parts without the separator are found again when they have been joined. -/
theorem splitOn_join {ns : List Bytes} (hne : ns ≠ []) (h : ∀ name ∈ ns, sep ∉ name) :
    splitOn sep (join [sep] ns) = ns := by
  induction ns with
  | nil => exact absurd rfl hne
  | cons name ns ih =>
    obtain ⟨hname, hns⟩ := List.forall_mem_cons.mp h
    cases ns with
    | nil => exact splitOn_of_not_mem hname
    | cons next ns =>
      rw [join_cons (by simp), splitOn_append, splitOn_of_not_mem hname, ih (by simp) hns]
      rfl

theorem join_splitOn (s : Bytes) : join [sep] (splitOn sep s) = s := by
  obtain ⟨first, rest, hs⟩ := exists_splitOn sep s
  have hparts := flatMap_splitOn sep s
  rw [← cons_join (by simp [hs])] at hparts
  exact List.cons_inj_right sep |>.mp hparts

end Bytes

namespace Path

/-- A name that a directory can hold: it is not empty, refers to no other place and has no slash. -/
structure IsName (part : Bytes) : Prop where
  ne_nil : part ≠ []
  ne_self : part ≠ "."
  ne_parent : part ≠ ".."
  slash : 47 ∉ part

theorem place_name {kept : List Bytes} {part : Bytes} (h : IsName part) :
    place true kept part = part :: kept := by
  have hnil : part.isEmpty = false := by simpa using h.ne_nil
  simp [place, hnil, h.ne_self, h.ne_parent]

theorem place_parent {kept : List Bytes} (h : ∀ name ∈ kept, IsName name) :
    place true kept ".." = kept.tail := by
  cases kept with
  | nil => rfl
  | cons last rest =>
    have hlast : (last == ("..") ) = false := by
      simpa using (h last List.mem_cons_self).ne_parent
    simp only [place, hlast, List.tail_cons]
    rfl

/-- A part stands for itself, for its parent, or for nothing. -/
theorem part_cases {part : Bytes} (h : 47 ∉ part) :
    (part = [] ∨ part = ".") ∨ part = ".." ∨ IsName part := by
  by_cases hnil : part = []
  · exact .inl (.inl hnil)
  by_cases hself : part = "."
  · exact .inl (.inr hself)
  by_cases hparent : part = ".."
  · exact .inr (.inl hparent)
  · exact .inr (.inr ⟨hnil, hself, hparent, h⟩)

theorem place_none {kept : List Bytes} {part : Bytes} (h : part = [] ∨ part = ".") :
    place true kept part = kept := by
  rcases h with rfl | rfl
  · rfl
  · simp [place]

/-- What is left of the parts of a rooted path, below a place whose names are `kept`, last first. -/
def follow (kept : List Bytes) (parts : List Bytes) : List Bytes := parts.foldl (place true) kept

theorem isName_follow {kept parts : List Bytes} (hk : ∀ name ∈ kept, IsName name)
    (hp : ∀ part ∈ parts, 47 ∉ part) : ∀ name ∈ follow kept parts, IsName name := by
  induction parts generalizing kept with
  | nil => exact hk
  | cons part parts ih =>
    obtain ⟨hpart, hparts⟩ := List.forall_mem_cons.mp hp
    refine ih ?_ hparts
    rcases part_cases hpart with h | rfl | h
    · rwa [place_none h]
    · rw [place_parent hk]
      exact fun name hm => hk name (List.mem_of_mem_tail hm)
    · rw [place_name h]
      exact List.forall_mem_cons.mpr ⟨h, hk⟩

theorem follow_names {kept names : List Bytes} (h : ∀ name ∈ names, IsName name) :
    follow kept names = names.reverse ++ kept := by
  induction names generalizing kept with
  | nil => rfl
  | cons name names ih =>
    obtain ⟨hname, hnames⟩ := List.forall_mem_cons.mp h
    rw [follow, List.foldl_cons, place_name hname, ← follow, ih hnames]
    simp

/-- Following a path only leaves parts out. -/
theorem sublist_follow {kept parts : List Bytes} (hk : ∀ name ∈ kept, IsName name)
    (hp : ∀ part ∈ parts, 47 ∉ part) :
    (follow kept parts).reverse.Sublist (kept.reverse ++ parts) := by
  induction parts generalizing kept with
  | nil => simp [follow]
  | cons part parts ih =>
    obtain ⟨hpart, hparts⟩ := List.forall_mem_cons.mp hp
    rw [follow, List.foldl_cons, ← follow]
    rcases part_cases hpart with h | rfl | h
    · rw [place_none h]
      exact (ih hk hparts).trans ((List.Sublist.refl _).append (List.sublist_cons_self ..))
    · rw [place_parent hk]
      refine (ih (fun name hm => hk name (List.mem_of_mem_tail hm)) hparts).trans ?_
      exact (List.reverse_sublist.mpr (List.tail_sublist _)).append (List.sublist_cons_self ..)
    · rw [place_name h]
      simpa using ih (List.forall_mem_cons.mpr ⟨h, hk⟩) hparts

/-- The names of a rooted path. -/
def names (p : Bytes) : List Bytes := (follow [] (Bytes.splitOn 47 p)).reverse

theorem isName_of_mem_names {p name : Bytes} (h : name ∈ names p) : IsName name :=
  isName_follow (by simp) (fun _ => Bytes.not_mem_of_mem_splitOn) name (List.mem_reverse.mp h)

theorem sublist_names (p : Bytes) : (names p).Sublist (Bytes.splitOn 47 p) :=
  sublist_follow (by simp) fun _ => Bytes.not_mem_of_mem_splitOn

theorem isAbsolute_iff {p : Bytes} : isAbsolute p = true ↔ ∃ s, p = 47 :: s := by
  have hslash : ("/" : Bytes) = [47] := by decide
  rw [isAbsolute, Bytes.startsWith, hslash, List.isPrefixOf_iff_prefix]
  constructor
  · rintro ⟨s, rfl⟩
    exact ⟨s, rfl⟩
  · rintro ⟨s, rfl⟩
    exact List.prefix_append [47] s

/-- The clean form of a rooted path is its names below the root. -/
theorem clean_eq_path {p : Bytes} (h : isAbsolute p = true) : clean p = Place.path (names p) := by
  simp only [clean, h, if_true]
  rfl

theorem isAbsolute_path (place : Place) : isAbsolute place.path = true :=
  isAbsolute_iff.mpr ⟨_, rfl⟩

theorem isAbsolute_clean {p : Bytes} (h : isAbsolute p = true) : isAbsolute (clean p) = true := by
  rw [clean_eq_path h]
  exact isAbsolute_path _

/-- The parts of a place's path: an empty one in front of the root, and the names. -/
theorem splitOn_path {place : Place} (h : ∀ name ∈ place, 47 ∉ name) :
    Bytes.splitOn 47 place.path = [] :: if place = [] then [[]] else place := by
  have hpath : place.path = 47 :: Bytes.join "/" place := rfl
  rw [hpath, Bytes.splitOn_cons_sep]
  split
  · next he => rw [he]; rfl
  · next hne => exact congrArg _ (Bytes.splitOn_join hne h)

theorem names_path {place : Place} (h : ∀ name ∈ place, IsName name) : names place.path = place := by
  rw [names, splitOn_path fun name hm => (h name hm).slash]
  split
  · next he => rw [he]; rfl
  · rw [follow, List.foldl_cons, place_none (.inl rfl), ← follow, follow_names h]
    simp

/-- Cleaning a clean path changes nothing. -/
theorem clean_clean {p : Bytes} (h : isAbsolute p = true) : clean (clean p) = clean p := by
  rw [clean_eq_path (isAbsolute_clean h), clean_eq_path h,
    names_path fun _ => isName_of_mem_names]

/-- Two parts that are not empty are joined by a slash. -/
theorem join_eq_clean {dir p : Bytes} (hdir : dir ≠ []) (hp : p ≠ []) :
    join [dir, p] = clean (dir ++ 47 :: p) := by
  have hdir : dir.isEmpty = false := by simpa using hdir
  have hp : p.isEmpty = false := by simpa using hp
  simp only [join, List.filter_cons, hdir, hp, Bool.not_false, if_true, List.filter_nil]
  exact congrArg clean (List.append_assoc dir [47] p)

theorem ne_nil_of_isAbsolute {p : Bytes} (h : isAbsolute p = true) : p ≠ [] := by
  rintro rfl
  cases h

theorem isAbsolute_append {dir : Bytes} (h : isAbsolute dir = true) (p : Bytes) :
    isAbsolute (dir ++ p) = true := by
  obtain ⟨s, rfl⟩ := isAbsolute_iff.mp h
  exact isAbsolute_iff.mpr ⟨s ++ p, rfl⟩

/-- A directory of absolute paths stays one. -/
theorem isAbsolute_join {dir p : Bytes} (h : isAbsolute dir = true) :
    isAbsolute (join [dir, p]) = true := by
  by_cases hp : p = []
  · obtain ⟨s, rfl⟩ := isAbsolute_iff.mp h
    rw [hp]
    exact isAbsolute_clean (isAbsolute_iff.mpr ⟨s, rfl⟩)
  · rw [join_eq_clean (ne_nil_of_isAbsolute h) hp]
    exact isAbsolute_clean (isAbsolute_append h _)

theorem clean_join {dir p : Bytes} (h : isAbsolute dir = true) :
    clean (join [dir, p]) = join [dir, p] := by
  by_cases hp : p = []
  · obtain ⟨s, rfl⟩ := isAbsolute_iff.mp h
    rw [hp]
    exact clean_clean (isAbsolute_iff.mpr ⟨s, rfl⟩)
  · rw [join_eq_clean (ne_nil_of_isAbsolute h) hp]
    exact clean_clean (isAbsolute_append h _)

theorem isAbsolute_resolve {dir : Bytes} (h : isAbsolute dir = true) (p : Bytes) :
    isAbsolute (resolve dir p) = true := by
  unfold resolve
  split
  · assumption
  · exact isAbsolute_join h

theorem isAbsolute_absolute {dir : Bytes} (h : isAbsolute dir = true) (p : Bytes) :
    isAbsolute (absolute dir p) = true := by
  unfold absolute
  split
  · next hp => exact isAbsolute_clean hp
  · exact isAbsolute_join h

theorem clean_absolute {dir : Bytes} (h : isAbsolute dir = true) (p : Bytes) :
    clean (absolute dir p) = absolute dir p := by
  unfold absolute
  split
  · next hp => exact clean_clean hp
  · exact clean_join h

theorem path_eq_flatMap {place : Place} (h : place ≠ []) : place.path = place.flatMap (47 :: ·) :=
  Bytes.cons_join h

/-- Names that are parts of a rooted path, in their order, have a path that only leaves bytes out. -/
theorem path_sublist {p : Bytes} {place : Place} (h : isAbsolute p = true)
    (hn : ∀ name ∈ place, IsName name) (hs : place.Sublist (Bytes.splitOn 47 p)) :
    place.path.Sublist p := by
  obtain ⟨s, rfl⟩ := isAbsolute_iff.mp h
  by_cases hne : place = []
  · rw [hne]
    exact List.Sublist.cons_cons 47 (List.nil_sublist s)
  · have hsub : place.Sublist (Bytes.splitOn 47 s) := by
      rw [Bytes.splitOn_cons_sep] at hs
      rcases List.sublist_cons_iff.mp hs with hs | ⟨r, rfl, -⟩
      · exact hs
      · exact absurd rfl (hn [] List.mem_cons_self).ne_nil
    have hparts := hsub.flatMap (47 :: ·)
    rwa [Bytes.flatMap_splitOn, ← path_eq_flatMap hne] at hparts

/-- Cleaning a rooted path only leaves bytes out. -/
theorem clean_sublist {p : Bytes} (h : isAbsolute p = true) : (clean p).Sublist p := by
  rw [clean_eq_path h]
  exact path_sublist h (fun _ => isName_of_mem_names) (sublist_names p)

/-! Paths with a last name. -/

/-- A name behind a path is the last of its names. -/
theorem names_append_name (p : Bytes) {name : Bytes} (h : IsName name) :
    names (p ++ 47 :: name) = names p ++ [name] := by
  rw [names, Bytes.splitOn_append, Bytes.splitOn_of_not_mem h.slash, follow, List.foldl_append,
    List.foldl_cons, List.foldl_nil, place_name h, List.reverse_cons]
  rfl

/-- A slash behind a path means nothing. -/
theorem names_append_slash (p : Bytes) : names (p ++ [47]) = names p := by
  rw [names, Bytes.splitOn_append, follow, List.foldl_append]
  rfl

theorem names_cons_slash (p : Bytes) : names (47 :: p) = names p := by
  rw [names, Bytes.splitOn_cons_sep]
  rfl

theorem join_name {dir name : Bytes} (hdir : isAbsolute dir = true) (h : IsName name) :
    join [dir, name] = Place.path (names dir ++ [name]) := by
  rw [join_eq_clean (ne_nil_of_isAbsolute hdir) h.ne_nil, clean_eq_path (isAbsolute_append hdir _),
    names_append_name _ h]

/-- The path of a place ends in its last name. -/
theorem path_concat (above : Place) (name : Bytes) :
    ∃ front, Place.path (above ++ [name]) = front ++ 47 :: name :=
  ⟨above.flatMap (47 :: ·), by rw [path_eq_flatMap (by simp)]; simp⟩

theorem names_clean {p : Bytes} (h : isAbsolute p = true) : names (clean p) = names p := by
  rw [clean_eq_path h, names_path fun _ => isName_of_mem_names]

/-- A rooted path is cut at its last slash. -/
theorem exists_last {p : Bytes} (h : isAbsolute p = true) :
    ∃ above name, p = above ++ 47 :: name ∧ 47 ∉ name := by
  obtain ⟨s, rfl⟩ := isAbsolute_iff.mp h
  obtain ⟨last, rest, hs, hlast⟩ := List.eq_append_cons_of_mem
    (List.mem_reverse.mpr (List.mem_cons_self (a := (47 : UInt8)) (l := s)))
  refine ⟨rest.reverse, last.reverse, ?_, by simpa using hlast⟩
  rw [← List.reverse_reverse (47 :: s), hs]
  simp

section
variable {above name : Bytes} (h : 47 ∉ name)
include h

/-- A path ends in a slash if nothing comes behind its last slash. -/
theorem endsWith_slash : Bytes.endsWith (above ++ 47 :: name) "/" = true ↔ name = [] := by
  have hslash : ("/" : Bytes) = [47] := by decide
  rw [Bytes.endsWith, hslash, List.isSuffixOf_iff_suffix]
  constructor
  · rintro ⟨front, he⟩
    refine List.eq_nil_or_concat name |>.resolve_right ?_
    rintro ⟨most, b, rfl⟩
    rw [List.concat_eq_append, ← List.cons_append, ← List.append_assoc] at he
    obtain ⟨-, hb⟩ := List.append_inj' he rfl
    exact absurd (by simp [← hb]) h
  · rintro rfl
    exact ⟨above, rfl⟩

theorem reverse_ne_slash : ∀ b ∈ name.reverse, (b != 47) = true := by
  intro b hb
  simp only [bne_iff_ne, ne_eq]
  rintro rfl
  exact h (List.mem_reverse.mp hb)

theorem directory_append : directory (above ++ 47 :: name) = clean (above ++ [47]) := by
  rw [directory, List.reverse_append, List.reverse_cons, List.append_assoc,
    List.dropWhile_append_of_pos (reverse_ne_slash h)]
  simp

theorem base_append (hne : name ≠ []) : base (above ++ 47 :: name) = name := by
  have hdrop : dropTrailingSlashes (above ++ 47 :: name) = above ++ 47 :: name := by
    obtain ⟨b, rest, hr⟩ := List.exists_cons_of_ne_nil (mt List.reverse_eq_nil_iff.mp hne)
    have hb : (b == 47) = false := by simpa using reverse_ne_slash h b (by simp [hr])
    rw [dropTrailingSlashes, List.reverse_append, List.reverse_cons, List.append_assoc, hr,
      List.cons_append, List.dropWhile_cons_of_neg (by simp [hb]), ← List.cons_append, ← hr]
    simp
  have hempty : (above ++ 47 :: name).isEmpty = false := by simp
  rw [base, if_neg (by simp [hempty])]
  simp only [hdrop, hempty, Bool.false_eq_true, if_false]
  rw [List.reverse_append, List.reverse_cons, List.append_assoc,
    List.takeWhile_append_of_pos (reverse_ne_slash h)]
  simp

end

end Path

end CommandShell
