import CommandShell.Proofs.CleanPath
import CommandShell.Search
import Mathlib

/-! Finding programs. A name without a slash is found in the first element of the search path that has
something to run under it, and only those elements matter. -/
namespace CommandShell.Search
variable {disk : Disk} {env other : Environment} {dir name path found : Bytes}
  {elems more : List Bytes}

/-- A path leads to a file that somebody may run. -/
def Runnable (disk : Disk) (path : Bytes) : Prop :=
  ∃ place mode id, disk.stat [] path = .ok (place, .file mode id) ∧ mode &&& 0o111 ≠ 0

/-- The elements of a search path stand between its colons. An empty one has none. -/
inductive Elements : Bytes → List Bytes → Prop
  | none : Elements [] []
  | some {elems : List Bytes} (apart : ∀ e ∈ elems, 58 ∉ e) (path : Bytes.join ":" elems ≠ []) :
      Elements (Bytes.join ":" elems) elems

/-- What an element of the search path makes of a name. An empty one means the working directory. -/
def place (dir name elem : Bytes) : Bytes :=
  if elem = [] then Path.join [dir, name] else Path.resolve dir (Path.join [elem, name])

/-! ### What can be run -/

theorem isExecutable_iff {item : Item} :
    item.isExecutable = true ↔ ∃ mode id, item = .file mode id ∧ mode &&& 0o111 ≠ 0 := by
  cases item <;> simp [Item.isExecutable]

theorem check_eq_ok_iff : check disk path = .ok () ↔ Runnable disk path := by
  unfold check Runnable
  rcases disk.stat [] path with e | ⟨spot, item⟩
  · simp
  · have hitem : (if item.isExecutable then .ok () else .error .denied : Except Failure Unit) = .ok () ↔
        item.isExecutable = true := by
      cases item.isExecutable <;> simp
    rw [hitem, isExecutable_iff]
    constructor
    · rintro ⟨mode, id, rfl, hmode⟩
      exact ⟨spot, mode, id, rfl, hmode⟩
    · rintro ⟨_, mode, id, he, hmode⟩
      cases he
      exact ⟨mode, id, rfl, hmode⟩

theorem check_isOk : (check disk path).isOk = true ↔ Runnable disk path := by
  rw [← check_eq_ok_iff]
  cases check disk path <;> simp [Except.isOk, Except.toBool]

/-! ### The search path -/

/-- A search path has its elements in one way only. -/
theorem Elements.eq (h : Elements path elems) :
    elems = if path = [] then [] else Bytes.splitOn 58 path := by
  cases h with
  | none => rfl
  | some apart hpath =>
    have hne : elems ≠ [] := by
      rintro rfl
      exact hpath rfl
    rw [if_neg hpath]
    exact (Bytes.splitOn_join hne apart).symm

theorem elements_of_elements (h : Elements path elems) :
    elements path = elems.map fun e => if e.isEmpty then ("." : Bytes) else e := by
  rw [h.eq, elements]
  by_cases hpath : path = [] <;> simp [hpath]

theorem exists_elements (path : Bytes) : ∃ elems, Elements path elems := by
  by_cases h : path = []
  · exact ⟨[], h ▸ .none⟩
  · have hjoin : Bytes.join ":" (Bytes.splitOn 58 path) = path := Bytes.join_splitOn path
    have helems : Elements (Bytes.join ":" (Bytes.splitOn 58 path)) (Bytes.splitOn 58 path) :=
      .some (fun _ => Bytes.not_mem_of_mem_splitOn) (by rwa [hjoin])
    rw [hjoin] at helems
    exact ⟨_, helems⟩

theorem join_self (hname : 47 ∉ name) :
    Path.join [("." : Bytes), name] = if name = [] then ("." : Bytes) else name := by
  by_cases hnil : name = []
  · subst hnil
    decide
  rw [if_neg hnil]
  have hempty : name.isEmpty = false := by simpa using hnil
  have hjoin : Path.join [("." : Bytes), name] = Path.clean ("." ++ 47 :: name) :=
    Path.join_eq_clean (by decide) hnil
  have hself : Path.place false [] "." = [] := rfl
  have hsplit : Bytes.splitOn 47 ("." ++ 47 :: name) = [("." : Bytes), name] := by
    rw [Bytes.splitOn_append, Bytes.splitOn_of_not_mem hname]
    rfl
  have hrooted : Path.isAbsolute ("." ++ 47 :: name) = false := rfl
  have hplace : Path.place false [] name = if name = "." then [] else [name] := by
    by_cases hdot : name = "."
    · subst hdot
      rfl
    · by_cases hparent : name = ".."
      · subst hparent
        rfl
      · simp [Path.place, hempty, hdot, hparent]
  rw [hjoin, Path.clean, hrooted, hsplit]
  simp only [List.foldl_cons, List.foldl_nil, hself, hplace]
  by_cases hdot : name = "."
  · subst hdot
    rfl
  · simp [hdot, Bytes.join]

theorem join_dot (hdir : Path.isAbsolute dir = true) : Path.join [dir, "."] = Path.join [dir, []] := by
  have hnames : Path.names (dir ++ 47 :: ".") = Path.names dir := by
    rw [Path.names, Bytes.splitOn_append, Path.follow, List.foldl_append]
    rfl
  obtain ⟨s, rfl⟩ := Path.isAbsolute_iff.mp hdir
  rw [Path.join_eq_clean (by simp) (by decide), Path.clean_eq_path (Path.isAbsolute_append hdir _),
    hnames, ← Path.clean_eq_path hdir]
  rfl

theorem isAbsolute_eq_false (h : 47 ∉ name) : Path.isAbsolute name = false := by
  rw [Bool.eq_false_iff]
  intro habs
  obtain ⟨s, rfl⟩ := Path.isAbsolute_iff.mp habs
  exact h List.mem_cons_self

theorem candidate_eq_place (hdir : Path.isAbsolute dir = true) (hname : 47 ∉ name) (elem : Bytes) :
    candidate dir name (if elem.isEmpty then ("." : Bytes) else elem) = place dir name elem := by
  by_cases helem : elem = []
  · subst helem
    rw [place, if_pos rfl, candidate, List.isEmpty_nil, if_pos rfl, join_self hname]
    split
    · next hnil => rw [hnil, Path.resolve, if_neg (by decide), join_dot hdir]
    · rw [Path.resolve, isAbsolute_eq_false hname]
      rfl
  · rw [place, if_neg helem, candidate, if_neg (by simpa using helem)]

/-! ### The search -/

theorem lookup_of_slash (h : 47 ∈ name) :
    lookup disk env dir name =
      (check disk (Path.resolve dir name)).map fun _ => Path.resolve dir name := by
  rw [lookup, if_pos (by simpa using h)]

theorem lookup_of_elements (hdir : Path.isAbsolute dir = true) (hname : 47 ∉ name)
    (h : Elements (env.get "PATH") elems) :
    lookup disk env dir name =
      match (elems.map (place dir name)).find? fun path => (check disk path).isOk with
      | some path => .ok path
      | none => .error .notFound := by
  have hcandidates : (elements (env.get "PATH")).map (candidate dir name) =
      elems.map (place dir name) := by
    rw [elements_of_elements h, List.map_map]
    exact List.map_congr_left fun elem _ => candidate_eq_place hdir hname elem
  rw [← hcandidates]
  exact if_neg (by simpa using hname)

theorem find?_eq_some_iff_first :
    ((elems.map (place dir name)).find? fun path => (check disk path).isOk) = some found ↔
      ∃ before elem after, elems = before ++ elem :: after ∧
        (∀ e ∈ before, ¬ Runnable disk (place dir name e)) ∧
        Runnable disk (place dir name elem) ∧ found = place dir name elem := by
  rw [List.find?_eq_some_iff_append]
  constructor
  · rintro ⟨hfound, before, after, he, hbefore⟩
    obtain ⟨front, back, rfl, rfl, hback⟩ := List.map_eq_append_iff.mp he
    obtain ⟨elem, rest, rfl, rfl, rfl⟩ := List.map_eq_cons_iff.mp hback
    refine ⟨front, elem, rest, rfl, fun e hm => ?_, check_isOk.mp hfound, rfl⟩
    have hno := hbefore _ (List.mem_map_of_mem hm)
    rw [← check_isOk]
    simpa using hno
  · rintro ⟨before, elem, after, rfl, hbefore, hfound, rfl⟩
    refine ⟨check_isOk.mpr hfound, before.map (place dir name), after.map (place dir name), by simp, ?_⟩
    intro path hm
    obtain ⟨e, he, rfl⟩ := List.mem_map.mp hm
    have hno := hbefore e he
    rw [← check_isOk] at hno
    simpa using hno

theorem lookup_eq_ok_iff (hdir : Path.isAbsolute dir = true) (hname : 47 ∉ name)
    (h : Elements (env.get "PATH") elems) :
    lookup disk env dir name = .ok found ↔
      ∃ before elem after, elems = before ++ elem :: after ∧
        (∀ e ∈ before, ¬ Runnable disk (place dir name e)) ∧
        Runnable disk (place dir name elem) ∧ found = place dir name elem := by
  rw [lookup_of_elements hdir hname h, ← find?_eq_some_iff_first]
  cases (elems.map (place dir name)).find? fun path => (check disk path).isOk <;> simp

theorem lookup_eq_error (hdir : Path.isAbsolute dir = true) (hname : 47 ∉ name)
    (h : Elements (env.get "PATH") elems) {e : Failure} :
    lookup disk env dir name = .error e ↔
      e = .notFound ∧ ∀ elem ∈ elems, ¬ Runnable disk (place dir name elem) := by
  have hnone : ((elems.map (place dir name)).find? fun path => (check disk path).isOk) = none ↔
      ∀ elem ∈ elems, ¬ Runnable disk (place dir name elem) := by
    simp only [List.find?_eq_none, List.forall_mem_map, check_isOk]
  rw [lookup_of_elements hdir hname h, ← hnone]
  cases (elems.map (place dir name)).find? fun path => (check disk path).isOk <;> simp [eq_comm]

theorem isAbsolute_place (hdir : Path.isAbsolute dir = true) (elem : Bytes) :
    Path.isAbsolute (place dir name elem) = true := by
  unfold place
  split
  · exact Path.isAbsolute_join hdir
  · exact Path.isAbsolute_resolve hdir _

theorem isAbsolute_of_lookup (hdir : Path.isAbsolute dir = true)
    (h : lookup disk env dir name = .ok found) : Path.isAbsolute found = true := by
  by_cases hname : 47 ∈ name
  · rw [lookup_of_slash hname] at h
    cases hc : check disk (Path.resolve dir name) with
    | error e => rw [hc] at h; cases h
    | ok =>
      rw [hc] at h
      cases h
      exact Path.isAbsolute_resolve hdir name
  · obtain ⟨elems, helems⟩ := exists_elements (env.get "PATH")
    obtain ⟨_, elem, _, -, -, -, rfl⟩ := (lookup_eq_ok_iff hdir hname helems).mp h
    exact isAbsolute_place hdir elem

/-- What is found stays found when elements are added at the end. -/
theorem lookup_of_more (hdir : Path.isAbsolute dir = true) (h : Elements (env.get "PATH") elems)
    (hmore : Elements (other.get "PATH") (elems ++ more))
    (hfound : lookup disk env dir name = .ok found) : lookup disk other dir name = .ok found := by
  by_cases hname : 47 ∈ name
  · rwa [lookup_of_slash hname] at hfound ⊢
  · obtain ⟨before, elem, after, rfl, hbefore, helem, he⟩ := (lookup_eq_ok_iff hdir hname h).mp hfound
    exact (lookup_eq_ok_iff hdir hname hmore).mpr
      ⟨before, elem, after ++ more, by simp, hbefore, helem, he⟩

/-- A name with a slash is a path, and what is wrong with that is the answer if it cannot be run. Any
other name is found in the first element of the search path where it leads to a program, and not found
if there is none. What is found is an absolute path; no other variable matters, and nor do elements
behind the one that has it. -/
theorem finds_first (disk : Disk) (env : Environment) {dir : Bytes}
    (hdir : Path.isAbsolute dir = true) (name : Bytes) :
    ∃ elems, Elements (env.get "PATH") elems ∧
    (47 ∈ name →
      let path := Path.resolve dir name
      (∀ found, lookup disk env dir name = .ok found ↔ Runnable disk path ∧ found = path) ∧
      (∀ e, disk.stat [] path = .error e → lookup disk env dir name = .error (.unreadable path e)) ∧
      ∀ found, disk.stat [] path = .ok found → ¬ Runnable disk path →
        lookup disk env dir name = .error .denied) ∧
    (47 ∉ name →
      (∀ found, lookup disk env dir name = .ok found ↔
        ∃ before elem after, elems = before ++ elem :: after ∧
          (∀ e ∈ before, ¬ Runnable disk (place dir name e)) ∧
          Runnable disk (place dir name elem) ∧ found = place dir name elem) ∧
      ∀ e, lookup disk env dir name = .error e ↔
        e = .notFound ∧ ∀ elem ∈ elems, ¬ Runnable disk (place dir name elem)) ∧
    (∀ found, lookup disk env dir name = .ok found → Path.isAbsolute found = true) ∧
    ∀ other : Environment,
      (other.get "PATH" = env.get "PATH" → lookup disk other dir name = lookup disk env dir name) ∧
      ∀ more found, Elements (other.get "PATH") (elems ++ more) →
        lookup disk env dir name = .ok found → lookup disk other dir name = .ok found := by
  obtain ⟨elems, helems⟩ := exists_elements (env.get "PATH")
  refine ⟨elems, helems, fun hname => ⟨fun found => ?_, fun e he => ?_, fun found hf hno => ?_⟩,
    fun hname => ⟨fun found => lookup_eq_ok_iff hdir hname helems,
      fun e => lookup_eq_error hdir hname helems⟩,
    fun found => isAbsolute_of_lookup hdir,
    fun other => ⟨fun hpath => ?_, fun more found => lookup_of_more hdir helems⟩⟩
  · rw [lookup_of_slash hname, ← check_eq_ok_iff]
    cases check disk (Path.resolve dir name) <;> simp [Except.map, eq_comm]
  · rw [lookup_of_slash hname, check, he]
    rfl
  · have hitem : found.2.isExecutable = false := by
      rw [Bool.eq_false_iff, ne_eq, ← check_eq_ok_iff, check, hf] at *
      simpa using hno
    rw [lookup_of_slash hname, check, hf]
    simp [hitem, Except.map]
  · rw [lookup, lookup, hpath]

set_option maxRecDepth 4000 in
/-- The first element has no such file, the second one that nobody may run, the empty one a directory
of that name, and the last one, seen from the working directory, the program. -/
theorem finds_first_relative :
    let disk := ((((({} : Disk).put ["a"] (.directory 0o755)).put ["b"] (.directory 0o755)).put
      ["w"] (.directory 0o755)).put ["w", "tool"] (.directory 0o755)).putFile ["a", "tool"] 0o644 []
      |>.putFile ["b", "tool"] 0o755 []
    let env := Environment.empty.set "PATH" "/no:/a::../b"
    Path.isAbsolute "/w" = true ∧ Elements (env.get "PATH") ["/no", "/a", "", "../b"] ∧
      lookup disk env "/w" "tool" = .ok "/b/tool" ∧
      lookup disk (env.set "HOME" "/b") "/w" "tool" = .ok "/b/tool" ∧
      lookup disk env "/w" "./tool" = .error .denied := by
  intro disk env
  have hdir : Path.isAbsolute "/w" = true := by decide
  have hpath : env.get "PATH" = "/no:/a::../b" := by decide
  obtain ⟨elems, helems, -, htool, -, hother⟩ := finds_first disk env hdir "tool"
  obtain ⟨_, -, hslash, -⟩ := finds_first disk env hdir "./tool"
  have hsplit : elems = (["/no", "/a", "", "../b"] : List Bytes) := by
    rw [helems.eq, hpath]
    decide
  subst hsplit
  have hno {path : Bytes} (h : (check disk path).isOk = false) : ¬ Runnable disk path := by
    rw [← check_isOk]
    simp [h]
  have hfound : lookup disk env "/w" "tool" = .ok "/b/tool" := by
    refine ((htool (by decide)).1 _).mpr ⟨["/no", "/a", ""], "../b", [], rfl, ?_, ?_, by decide⟩
    · simp only [List.forall_mem_cons, List.not_mem_nil, false_implies, implies_true, and_true]
      exact ⟨hno (by cbv), hno (by cbv), hno (by cbv)⟩
    · exact check_isOk.mp (by cbv)
  refine ⟨hdir, helems, hfound, ?_, ?_⟩
  · rw [(hother (env.set "HOME" "/b")).1 (by decide)]
    exact hfound
  · have hstat : disk.stat [] (Path.resolve "/w" "./tool") =
        .ok (["w", "tool"], .directory 0o755) := by cbv
    exact (hslash (by decide)).2.2 _ hstat (hno (by cbv))

end CommandShell.Search
