import CommandShell.Proofs.CleanPath
import CommandShell.Proofs.NamelessContent

/-! Walks on a disk without links. A rooted path that leads to something leads to the place of its
names, and its clean form leads there too. -/
namespace CommandShell.Disk
variable {d : Disk}

/-- No name stands for a symbolic link. -/
def Linkless (d : Disk) : Prop := ∀ place target, d.item? place ≠ some (.link target)

/-- A place that can be walked to: above each of its names, which a directory can hold, is a directory. -/
def Reached (d : Disk) (here : Place) : Prop :=
  ∀ above name, above ++ [name] <+: here →
    (∃ mode, d.item? above = some (.directory mode)) ∧ Path.IsName name ∧ name.length ≤ nameLimit

theorem reached_root : d.Reached [] := by
  intro above name h
  simp at h

theorem Reached.of_prefix {here up : Place} (h : d.Reached here) (hp : up <+: here) :
    d.Reached up := fun above name ha => h above name (ha.trans hp)

theorem Reached.append {here : Place} {part : Bytes} {mode : Nat} (h : d.Reached here)
    (hd : d.item? here = some (.directory mode)) (hn : Path.IsName part)
    (hl : part.length ≤ nameLimit) : d.Reached (here ++ [part]) := by
  intro above name ha
  rcases List.prefix_concat_iff.mp ha with he | hp
  · obtain ⟨rfl, rfl⟩ : above = here ∧ name = part := by simpa using he
    exact ⟨⟨mode, hd⟩, hn, hl⟩
  · exact h above name hp

theorem Reached.isName {here : Place} (h : d.Reached here) : ∀ name ∈ here, Path.IsName name := by
  intro name hm
  obtain ⟨above, rest, rfl⟩ := List.append_of_mem hm
  exact (h above name ⟨rest, by simp⟩).2.1

/-- A walk that leads to something ends at the place of the names it goes through. -/
theorem Reached.walk_item {follow : Bool} {links : Nat} {here place : Place} {parts : List Bytes}
    {item : Item} (hl : d.Linkless) (hr : d.Reached here) (hp : ∀ part ∈ parts, 47 ∉ part)
    (h : d.walk follow links here parts = .ok (.item place item)) :
    place = (Path.follow here.reverse parts).reverse ∧ d.item? place = some item ∧
      d.Reached place := by
  fun_induction d.walk follow links here parts with
  | case1 | case5 | case6 | case7 | case12 => cases h
  | case2 _ here item' hitem =>
    cases h
    exact ⟨(List.reverse_reverse _).symm, hitem, hr⟩
  | case3 _ here part rest _ _ hnone ih =>
    have hpart : part = [] ∨ part = "." := by simpa using hnone
    rw [Path.follow, List.foldl_cons, Path.place_none hpart, ← Path.follow]
    exact ih hr (List.forall_mem_cons.mp hp).2 h
  | case4 _ here part rest _ _ _ hparent ih =>
    obtain rfl : part = ".." := by simpa using hparent
    have hnames : ∀ name ∈ here.reverse, Path.IsName name := fun name hm =>
      hr.isName name (List.mem_reverse.mp hm)
    rw [Path.follow, List.foldl_cons, Path.place_parent hnames, List.tail_reverse, ← Path.follow]
    exact ih (hr.of_prefix (List.dropLast_prefix here)) (List.forall_mem_cons.mp hp).2 h
  | case8 _ here part rest _ _ _ _ _ _ target hlink | case9 here part rest _ _ _ _ _ _ target hlink
  | case10 here part rest _ _ _ _ _ _ target hlink => exact absurd hlink (hl _ target)
  | case11 _ here part rest mode hdir hnone hparent hlong next _ hitem _ ih =>
    obtain ⟨hpart, hrest⟩ := List.forall_mem_cons.mp hp
    have hname : Path.IsName part := by
      refine ((Path.part_cases hpart).resolve_left ?_).resolve_left ?_
      · simpa using hnone
      · simpa using hparent
    rw [Path.follow, List.foldl_cons, Path.place_name hname, ← Path.follow]
    simpa [next] using ih (hr.append hdir hname (Nat.le_of_not_lt hlong)) hrest h

/-- Names can be walked one by one. -/
theorem Reached.walk_names {follow : Bool} {links : Nat} {here : Place} {names : List Bytes}
    {item : Item} (hl : d.Linkless) (hr : d.Reached (here ++ names))
    (hitem : d.item? (here ++ names) = some item) :
    d.walk follow links here names = .ok (.item (here ++ names) item) := by
  induction names generalizing here with
  | nil =>
    rw [List.append_nil] at hitem ⊢
    rw [walk.eq_def, hitem]
  | cons name names ih =>
    have hsplit : here ++ name :: names = (here ++ [name]) ++ names := by simp
    rw [hsplit] at hr hitem ⊢
    obtain ⟨⟨mode, hdir⟩, hname, hlong⟩ := hr here name (List.prefix_append _ _)
    have hnext : ∃ other, d.item? (here ++ [name]) = some other := by
      cases names with
      | nil => exact ⟨item, by simpa using hitem⟩
      | cons next rest =>
        obtain ⟨⟨mode, hdir⟩, -⟩ := hr (here ++ [name]) next ⟨rest, by simp⟩
        exact ⟨_, hdir⟩
    obtain ⟨other, hother⟩ := hnext
    have hnone : (name.isEmpty || name == ".") = false := by
      simpa using ⟨hname.ne_nil, hname.ne_self⟩
    have hparent : (name == "..") = false := by simpa using hname.ne_parent
    rw [walk.eq_def, hdir]
    simp only [hnone, hparent, Bool.false_eq_true, if_false, Nat.not_lt_of_le hlong, hother]
    cases other with
    | link target => exact absurd hother (hl _ target)
    | directory | file | null => exact ih hr hitem

/-- What a rooted path leads to, its clean form leads to as well. -/
theorem stat_clean {cwd place : Place} {path : Bytes} {item : Item} (hl : d.Linkless)
    (habs : Path.isAbsolute path = true) (h : d.stat cwd path = .ok (place, item)) :
    d.stat cwd (Path.clean path) = .ok (place, item) := by
  have hclean : Path.isAbsolute (Path.clean path) = true := Path.isAbsolute_clean habs
  obtain ⟨s, rfl⟩ := Path.isAbsolute_iff.mp habs
  unfold stat at h ⊢
  have hfind : d.find true cwd (47 :: s) = .ok (.item place item) := by
    split at h
    · cases h
    · next he => cases h; exact he
    · cases h
  unfold find at hfind
  simp only [habs, if_true, Bytes.splitOn_cons_sep] at hfind
  split at hfind
  · cases hfind
  split at hfind
  · cases hfind
  split at hfind
  · cases hfind
  next h0 hempty hlong =>
  -- The walk starts at the root, which is a directory.
  obtain ⟨mode, hroot⟩ : ∃ mode, d.item? [] = some (.directory mode) := by
    rw [walk.eq_def] at hfind
    split at hfind
    · cases hfind
    · simp at *
    · exact ⟨_, by assumption⟩
    · cases hfind
  have hparts : ∀ part ∈ ([] : Bytes) :: Bytes.splitOn 47 s, 47 ∉ part := by
    rw [← Bytes.splitOn_cons_sep]
    exact fun _ => Bytes.not_mem_of_mem_splitOn
  obtain ⟨hplace, hitem, hreached⟩ := reached_root.walk_item hl hparts hfind
  have hnames : place = Path.names (47 :: s) := by
    rw [hplace, Path.names, Bytes.splitOn_cons_sep, List.reverse_nil]
  have hpath : Path.clean (47 :: s) = place.path := by rw [Path.clean_eq_path habs, hnames]
  have hwalk : d.walk true linkLimit [] (Bytes.splitOn 47 place.path) = .ok (.item place item) := by
    rw [Path.splitOn_path fun name hm => (hreached.isName name hm).slash, walk.eq_def, hroot]
    dsimp only
    rw [if_pos (by simp)]
    split
    · next hnil =>
      subst hnil
      rw [walk.eq_def, hroot]
      dsimp only
      rw [if_pos (by simp), walk.eq_def, hitem]
    · have hroot : d.Reached ([] ++ place) := hreached
      exact hroot.walk_names hl hitem
  have hfound : d.find true cwd (Path.clean (47 :: s)) = .ok (.item place item) := by
    unfold find
    rw [if_neg, if_neg, if_neg]
    · rw [if_pos hclean, hpath, hwalk]
    · exact fun hlt => hlong (Nat.lt_of_lt_of_le hlt (Path.clean_sublist habs).length_le)
    · obtain ⟨t, ht⟩ := Path.isAbsolute_iff.mp hclean
      rw [ht]
      simp
    · intro hmem
      exact h0 (List.contains_iff_mem.mpr
        ((Path.clean_sublist habs).subset (List.contains_iff_mem.mp hmem)))
  rw [hfound]

end CommandShell.Disk
