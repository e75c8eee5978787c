import CommandShell.Proofs.LoadedSettings
import CommandShell.Proofs.MadeDirectories

/-! Making a configuration directory and loading it. The file is looked for where it was put unless the
path of the directory ends in the name of the file, which loading takes for the path of the file. -/
namespace CommandShell

namespace Config
variable {dir workingDir : Bytes}

theorem isName_fileName : Path.IsName fileName := ⟨by decide, by decide, by decide, by decide⟩

theorem endsWith_fileName :
    Bytes.endsWith dir "/config.yaml" = true ↔ ∃ above, dir = above ++ 47 :: fileName := by
  have hfile : ("/config.yaml" : Bytes) = 47 :: fileName := by decide
  rw [Bytes.endsWith, hfile, List.isSuffixOf_iff_suffix]
  constructor
  · rintro ⟨above, h⟩
    exact ⟨above, h.symm⟩
  · rintro ⟨above, h⟩
    exact ⟨above, h.symm⟩

theorem directoryOf_eq_clean (habs : Path.isAbsolute dir = true)
    (h : ¬ Bytes.endsWith dir "/config.yaml" = true) : directoryOf workingDir dir = Path.clean dir := by
  obtain ⟨above, name, rfl, hname⟩ := Path.exists_last habs
  unfold directoryOf Path.absolute
  by_cases hnil : name = []
  · subst hnil
    rw [Path.directory_append List.not_mem_nil]
    split
    · rw [if_pos (Path.isAbsolute_clean habs), Path.clean_clean habs]
    · rw [if_pos habs]
  · have hbase : ¬ (name == fileName) = true := by
      intro he
      rw [eq_of_beq he] at h
      exact h (endsWith_fileName.mpr ⟨above, rfl⟩)
    rw [Path.base_append hname hnil, if_neg hbase, if_pos habs]

/-- The path of the file stands for the directory that the file is in. -/
theorem directoryOf_file {above : Bytes} (habs : Path.isAbsolute (above ++ 47 :: fileName) = true) :
    directoryOf workingDir (above ++ 47 :: fileName) = Place.path (Path.names above) := by
  have hup : Path.isAbsolute (above ++ [47]) = true := by
    cases above with
    | nil => rfl
    | cons b above =>
      obtain ⟨s, hs⟩ := Path.isAbsolute_iff.mp habs
      cases hs
      exact Path.isAbsolute_iff.mpr ⟨_, rfl⟩
  unfold directoryOf Path.absolute
  rw [Path.base_append isName_fileName.slash isName_fileName.ne_nil, if_pos (beq_self_eq_true _),
    Path.directory_append isName_fileName.slash, if_pos (Path.isAbsolute_clean hup),
    Path.clean_clean hup, Path.clean_eq_path hup, Path.names_append_slash]

theorem finish_unset {env : Environment} (henv : ∀ x : Setting, env.get x.variableName = [])
    {base : Config} (h : base.Valid) : finish env base = .ok base :=
  finish_eq_ok_iff.mpr ⟨⟨fun x => by rw [Setting.settled?, if_pos (henv x)], rfl⟩, h⟩

theorem Valid.inDirectory {c : Config} (h : c.Valid) (dir : Bytes) :
    Valid { c with directory := dir } :=
  ⟨h.name, h.slash, h.policy, h.aliases⟩

theorem valid_builtIn : builtIn.Valid := by
  rw [← violations_eq_nil, builtIn_eq]
  decide +kernel

section
variable {σ : Type} {files : Storage σ} {env : Environment} {s made s' : σ}

theorem result_create (hmade : files.makeDirectories dir s = .ok made)
    (hnone : files.contains (Path.join [dir, fileName]) made = .ok false) :
    (create files dir s).result = files.write (Path.join [dir, fileName]) defaultText made := by
  simp only [create, hmade, hnone]

/-- Where loading looks, it finds what is at the path of the file. -/
theorem load_eq_builtIn (hdir : Path.isAbsolute dir = true)
    (henv : ∀ x : Setting, env.get x.variableName = [])
    (hends : ¬ Bytes.endsWith dir "/config.yaml" = true)
    (hread : files.read (Path.join [dir, fileName]) s = .ok defaultText) :
    load files env workingDir dir s = .ok { builtIn with directory := Path.clean dir } := by
  have hclean : directoryOf workingDir dir = Path.clean dir := directoryOf_eq_clean hdir hends
  have hpath : Path.join [directoryOf workingDir dir, fileName] = Path.join [dir, fileName] := by
    rw [hclean, Path.join_name (Path.isAbsolute_clean hdir) isName_fileName, Path.names_clean hdir,
      Path.join_name hdir isName_fileName]
  have hstored : Stored files workingDir dir s { builtIn with directory := Path.clean dir } :=
    ⟨defaultText, builtIn, hpath ▸ hread, ofBytes_defaultText, by rw [hclean]⟩
  rw [load_stored hstored]
  exact finish_unset henv (valid_builtIn.inDirectory _)

/-- What is loaded for the path of a file comes from the directory above. -/
theorem directory_ne_clean {above : Bytes} (hdir : Path.isAbsolute (above ++ 47 :: fileName) = true)
    {c : Config} (h : load files env workingDir (above ++ 47 :: fileName) s = .ok c) :
    c.directory ≠ Path.clean (above ++ 47 :: fileName) := by
  obtain ⟨base, ⟨text, stored, -, -, rfl⟩, hmerged, -⟩ := load_eq_ok_iff.mp h
  rw [hmerged.directory, directoryOf_file hdir, Path.clean_eq_path hdir,
    Path.names_append_name above isName_fileName]
  intro he
  have hnames := congrArg Path.names he
  rw [Path.names_path fun _ => Path.isName_of_mem_names, Path.names_path] at hnames
  · simpa using congrArg List.length hnames
  · intro name hm
    rcases List.mem_append.mp hm with hm | hm
    · exact Path.isName_of_mem_names hm
    · exact List.mem_singleton.mp hm ▸ isName_fileName

theorem load_iff_of_read (hdir : Path.isAbsolute dir = true)
    (henv : ∀ x : Setting, env.get x.variableName = [])
    (hread : files.read (Path.join [dir, fileName]) s = .ok defaultText) :
    load files env workingDir dir s = .ok { builtIn with directory := Path.clean dir } ↔
      ¬ Bytes.endsWith dir "/config.yaml" = true := by
  refine ⟨fun h hends => ?_, fun hends => load_eq_builtIn hdir henv hends hread⟩
  obtain ⟨above, rfl⟩ := endsWith_fileName.mp hends
  exact directory_ne_clean hdir h rfl

end

end Config

namespace FileTable
variable {t : FileTable} {path other : Bytes}

theorem find?_put (t : FileTable) (path other : Bytes) (file : TableFile) :
    (t.put path file).find? other = if key other = key path then some file else t.find? other :=
  find?_renewed t.entries (key path) (key other) file

theorem key_eq_path (h : Path.isAbsolute path = true) : key path = Place.path (Path.names path) := by
  obtain ⟨s, rfl⟩ := Path.isAbsolute_iff.mp h
  have hkey : key (47 :: s) = Path.clean (47 :: 47 :: 47 :: s) := by
    simp only [key, Path.join, List.filter_cons, List.isEmpty_cons]
    rfl
  rw [hkey, Path.clean_eq_path (Path.isAbsolute_iff.mpr ⟨_, rfl⟩), Path.names_cons_slash,
    Path.names_cons_slash]

theorem key_path {place : Place} (h : ∀ name ∈ place, Path.IsName name) :
    key place.path = place.path := by
  rw [key_eq_path (Path.isAbsolute_path place), Path.names_path h]

/-- The directories above a path are at the places above its own. -/
theorem key_of_mem_above {dir : Bytes} (h : Path.isAbsolute path = true) (hm : dir ∈ above path) :
    ∃ n < (Path.names path).length, key dir = Place.path ((Path.names path).take n) := by
  have hnames : ∀ name ∈ Path.names path, Path.IsName name := fun _ => Path.isName_of_mem_names
  have hparts : (Bytes.splitOn 47 (key path)).filter (!·.isEmpty) = Path.names path := by
    rw [key_eq_path h, Path.splitOn_path fun name hm => (hnames name hm).slash]
    split
    · next he => rw [he]; rfl
    · rw [List.filter_cons_of_neg (by simp), List.filter_eq_self]
      intro name hm
      simpa using (hnames name hm).ne_nil
  simp only [above, hparts, List.mem_map, List.mem_range] at hm
  obtain ⟨n, hn, rfl⟩ := hm
  refine ⟨n + 1, by omega, key_path fun name hm => hnames name (List.mem_of_mem_take hm)⟩

theorem find?_makeAbove (h : ∀ dir ∈ above path, key dir ≠ key other) :
    (t.makeAbove path).find? other = t.find? other := by
  unfold makeAbove
  generalize above path = dirs at h
  induction dirs generalizing t with
  | nil => rfl
  | cons dir rest ih =>
    obtain ⟨hdir, hrest⟩ := List.forall_mem_cons.mp h
    rw [List.foldl_cons, ih hrest, find?_put, if_neg (Ne.symm hdir)]

theorem read_write (h : t.find? path = none) (data : Bytes) :
    storage.read path (t.write path data) = .ok data := by
  have hread : (t.write path data).read? path = some data := by
    rw [read?, write, h]
    dsimp only
    rw [find?_put, if_pos rfl]
    rfl
  simp only [storage, hread]

/-- Making a directory puts nothing at a name in it. -/
theorem find?_makeDirectories {dir name : Bytes} (hdir : Path.isAbsolute dir = true)
    (hn : Path.IsName name) :
    (t.makeDirectories dir).find? (Path.join [dir, name]) = t.find? (Path.join [dir, name]) := by
  have hnames : ∀ part ∈ Path.names dir ++ [name], Path.IsName part := by
    intro part hm
    rcases List.mem_append.mp hm with hm | hm
    · exact Path.isName_of_mem_names hm
    · exact List.mem_singleton.mp hm ▸ hn
  have hfile : key (Path.join [dir, name]) = Place.path (Path.names dir ++ [name]) := by
    rw [Path.join_name hdir hn, key_path hnames]
  have habove (n : Nat) : Place.path ((Path.names dir).take n) ≠ key (Path.join [dir, name]) := by
    rw [hfile]
    intro he
    have hplace := congrArg Path.names he
    rw [Path.names_path hnames, Path.names_path fun part hm =>
      Path.isName_of_mem_names (List.mem_of_mem_take hm)] at hplace
    have hlength := congrArg List.length hplace
    rw [List.length_take, List.length_append, List.length_singleton] at hlength
    omega
  unfold makeDirectories
  split
  · rfl
  · have hself := habove (Path.names dir).length
    rw [List.take_length, ← key_eq_path hdir] at hself
    rw [find?_put, if_neg (Ne.symm hself), find?_makeAbove]
    intro up hm
    obtain ⟨n, -, hup⟩ := key_of_mem_above hdir hm
    rw [hup]
    exact habove n

end FileTable

namespace Config
variable {dir : Bytes} {env : Environment}

/-- What was made for a directory is loaded from it, unless its path ends in the name of the file. So it
is wherever the file was not there when it came to writing it and is read back as it was written: in a
table of files without the file, and on a disk without it if the path never goes up. -/
theorem load_create_iff (workingDir : Bytes) (hdir : Path.isAbsolute dir = true)
    (henv : ∀ x : Setting, env.get x.variableName = []) :
    let path := Path.join [dir, fileName]
    let loaded : Except LoadError Config := .ok { builtIn with directory := Path.clean dir }
    (∀ {σ : Type} (files : Storage σ) (s made s' : σ), files.makeDirectories dir s = .ok made →
      files.contains path made = .ok false →
      (∀ after, files.write path defaultText made = .ok after →
        files.read path after = .ok defaultText) →
      (create files dir s).result = .ok s' →
      (load files env workingDir dir s' = loaded ↔ ¬ Bytes.endsWith dir "/config.yaml" = true)) ∧
    (∀ t : FileTable, t.find? path = none → ∃ t', (create FileTable.storage dir t).result = .ok t' ∧
      (load FileTable.storage env workingDir dir t' = loaded ↔
        ¬ Bytes.endsWith dir "/config.yaml" = true)) ∧
    ∀ (cwd : Place) (d d' : Disk), d.Grounded → (".." : Bytes) ∉ Bytes.splitOn 47 dir →
      (∀ place item, d.find false cwd path ≠ .ok (.item place item)) →
      (create (Disk.storage cwd) dir d).result = .ok d' →
      (load (Disk.storage cwd) env workingDir dir d' = loaded ↔
        ¬ Bytes.endsWith dir "/config.yaml" = true) := by
  intro path loaded
  refine ⟨fun files s made s' hmade hnone hback h => ?_, fun t hnone => ?_,
    fun cwd d d' hg hup hnone h => ?_⟩
  · rw [result_create hmade hnone] at h
    exact load_iff_of_read hdir henv (hback s' h)
  · have hmade : (t.makeDirectories dir).find? path = none :=
      (FileTable.find?_makeDirectories hdir isName_fileName).trans hnone
    have hcontains : FileTable.storage.contains path (t.makeDirectories dir) = .ok false := by
      simp only [FileTable.storage, hmade, Option.isSome_none]
    refine ⟨(t.makeDirectories dir).write path defaultText, result_create rfl hcontains, ?_⟩
    exact load_iff_of_read hdir henv (FileTable.read_write hmade _)
  · cases hmake : (Disk.storage cwd).makeDirectories dir d with
    | error failure =>
      simp only [create, hmake] at h
      cases h
    | ok made =>
      have hmade : Disk.Made d made cwd dir := .of_makeDirectories hg hup hmake
      obtain ⟨hfree, hback⟩ := hmade.read_written hdir hup isName_fileName (by decide) hnone
      have hcontains : (Disk.storage cwd).contains path made = .ok false := by
        cases hfound : (Disk.storage cwd).contains path made with
        | error failure =>
          simp only [create, hmake] at h
          rw [hfound] at h
          cases h
        | ok found =>
          cases found with
          | true => exact absurd hfound hfree
          | false => rfl
      rw [result_create hmake hcontains] at h
      exact load_iff_of_read hdir henv (hback _ _ h)

/-- A directory with the name of the file is made and not found. One with a slash behind that name is
found on a disk. -/
theorem load_create_iff_nested :
    let dir : Bytes := "/a/config.yaml"
    let disk : Disk := {}
    Path.isAbsolute dir = true ∧ (∀ x : Setting, Environment.empty.get x.variableName = []) ∧
      (∃ t', (create FileTable.storage dir {}).result = .ok t' ∧
        load FileTable.storage .empty "/" dir t' ≠ .ok { builtIn with directory := dir }) ∧
      disk.Grounded ∧ ∃ d', (create (Disk.storage []) (dir ++ "/") disk).result = .ok d' ∧
        load (Disk.storage []) .empty "/" (dir ++ "/") d' = .ok { builtIn with directory := dir } := by
  intro dir disk
  have hdir : Path.isAbsolute dir = true := by decide
  have hslash : Path.isAbsolute (dir ++ "/") = true := by decide
  have henv : ∀ x : Setting, Environment.empty.get x.variableName = [] := fun _ => rfl
  have hclean : Path.clean dir = dir := by decide +kernel
  have hclean' : Path.clean (dir ++ "/") = dir := by decide +kernel
  have hg : disk.Grounded := by
    intro place name h
    simp [disk, Disk.item?] at h
  obtain ⟨t', htable, hload⟩ := (load_create_iff "/" hdir henv).2.1 {} rfl
  let made := (disk.put ["a"] (.directory 0o700)).put ["a", fileName] (.directory 0o700)
  have hmade : (Disk.storage []).makeDirectories (dir ++ "/") disk = .ok made := by
    subst made dir disk
    cbv
  have hcontains : (Disk.storage []).contains (Path.join [dir ++ "/", fileName]) made = .ok false := by
    subst made dir disk
    cbv
  have hwrite (data : Bytes) : (Disk.storage []).write (Path.join [dir ++ "/", fileName]) data made =
      .ok (made.putFile ["a", fileName, fileName] 0o600 data) := by
    subst made dir disk
    cbv
  have hdisk := (result_create hmade hcontains).trans (hwrite defaultText)
  have hnone : ∀ place item, disk.find false [] (Path.join [dir ++ "/", fileName]) ≠
      .ok (.item place item) := by
    intro place item
    subst dir disk
    cbv
    simp
  have hload' := (load_create_iff "/" hslash henv).2.2 [] disk _ hg (by decide) hnone hdisk
  rw [hclean] at hload
  rw [hclean'] at hload'
  exact ⟨hdir, henv, ⟨t', htable, fun h => hload.mp h (by decide)⟩, hg, _, hdisk,
    hload'.mpr (by decide)⟩

end Config

end CommandShell
