import CommandShell.Proofs.CleanWalk
import CommandShell.Proofs.DirectoryArguments
import CommandShell.Proofs.ExactRedirection
import CommandShell.Proofs.OneLineForm

/-! Relative paths and their absolute spellings. A relative path is put behind the working directory and
cleaned, and the absolute spelling is taken as it is. Changing to them or redirecting to them has the
same effect if all parts that cleaning leaves out find what they need on the disk. -/
namespace CommandShell

namespace Redirections

/-- The same redirections with another target in one place. -/
def put (files : Redirections) : Slot → Bytes → Redirections
  | .input, path => { files with input := path }
  | .output, path => { files with output := path }
  | .append, path => { files with append := path }
  | .error, path => { files with error := path }

end Redirections

namespace Path

/-- A relative path means the clean form of what it is behind the directory. -/
theorem resolve_relative {dir p : Bytes} (hdir : isAbsolute dir = true) (hp : isAbsolute p = false)
    (hne : p ≠ []) : resolve dir p = clean (dir ++ 47 :: p) := by
  rw [resolve, hp, if_neg (by decide), join_eq_clean (ne_nil_of_isAbsolute hdir) hne]

theorem resolve_absolute (dir : Bytes) {p : Bytes} (hp : isAbsolute p = true) : resolve dir p = p :=
  if_pos hp

end Path

/-- If a path that passes is of the same use as its clean form, and no other path is of any use, then the
two are of the same use exactly if the path passes or the clean form is of no use either. -/
theorem same_use_iff {passes clean itself : Prop} (alike : passes → (clean ↔ itself))
    (needed : itself → passes) : (clean ↔ itself) ↔ passes ∨ ¬ clean := by
  tauto

namespace Disk
variable {d : Disk} {q : Bytes} (hq : Path.isAbsolute q = true)

/-- There is a directory where a path leads. -/
def HasDirectory (d : Disk) (path : Bytes) : Prop :=
  ∃ there mode, d.stat [] path = .ok (there, .directory mode)

include hq

theorem Passes.hasDirectory_iff (h : d.Passes q) : d.HasDirectory (Path.clean q) ↔ d.HasDirectory q :=
  exists₂_congr fun _ _ => (h.stat_clean hq).symm

theorem Unlinked.hasDirectory_iff (hu : d.Unlinked q) :
    (d.HasDirectory (Path.clean q) ↔ d.HasDirectory q) ↔
      d.Passes q ∨ ¬ d.HasDirectory (Path.clean q) :=
  same_use_iff (fun h => h.hasDirectory_iff hq) fun ⟨_, _, hstat⟩ =>
    passes_of_stat hq hu hstat

end Disk

namespace World
variable {w : World} {access : Disk.Access} {path other : Bytes}

/-- The next request for an open file is granted, and the path opens. -/
def CanOpen (w : World) (access : Disk.Access) (path : Bytes) : Prop :=
  ∃ handle after, w.openPath access [] path = (.ok handle, after)

theorem exists_error_of_not_canOpen (h : ¬ w.CanOpen access path) :
    ∃ e after, w.openPath access [] path = (.error e, after) := by
  rcases ho : w.openPath access [] path with ⟨e | handle, after⟩
  · exact ⟨e, after, rfl⟩
  · exact absurd ⟨handle, after, ho⟩ h

/-- What can be opened opens on the disk. -/
theorem CanOpen.exists_opened (h : w.CanOpen access path) :
    ∃ opened, w.disk.openPath access [] path = .ok opened := by
  obtain ⟨handle, after, ho⟩ := h
  obtain ⟨stream, hd, -⟩ := openPath_eq_ok ho
  exact ⟨_, hd⟩

theorem not_canOpen_of_error {e : PathError} (h : w.disk.openPath access [] path = .error e) :
    ¬ w.CanOpen access path := by
  intro hopen
  obtain ⟨opened, hd⟩ := hopen.exists_opened
  rw [h] at hd
  cases hd

/-- Paths that open alike on the disk are opened alike. -/
theorem openPath_agree
    (h : Disk.Agree (w.disk.openPath access [] path) (w.disk.openPath access [] other)) :
    w.openPath access [] path = w.openPath access [] other ∨
      (¬ w.CanOpen access path ∧ ¬ w.CanOpen access other) := by
  obtain h | ⟨⟨e, he⟩, e', he'⟩ := h
  · left
    simp only [openPath, request]
    rw [h]
  · exact .inr ⟨not_canOpen_of_error he, not_canOpen_of_error he'⟩

section
variable {q : Bytes} (hq : Path.isAbsolute q = true)
include hq

theorem openPath_clean_agree (h : w.disk.Passes q) (access : Disk.Access) :
    w.openPath access [] (Path.clean q) = w.openPath access [] q ∨
      ¬ w.CanOpen access (Path.clean q) ∧ ¬ w.CanOpen access q :=
  openPath_agree (h.openPath_clean hq access).symm

theorem canOpen_clean_iff (h : w.disk.Passes q) (access : Disk.Access) :
    w.CanOpen access (Path.clean q) ↔ w.CanOpen access q := by
  obtain hsame | ⟨hno, hno'⟩ := openPath_clean_agree hq h access
  · simp only [CanOpen, hsame]
  · exact iff_of_false hno hno'

theorem CanOpen.passes (hu : w.disk.Unlinked q) (h : w.CanOpen access q) : w.disk.Passes q := by
  obtain ⟨opened, hd⟩ := h.exists_opened
  exact Disk.passes_of_openPath hq hu hd

theorem canOpen_iff_of_unlinked (hu : w.disk.Unlinked q) (access : Disk.Access) :
    (w.CanOpen access (Path.clean q) ↔ w.CanOpen access q) ↔
      w.disk.Passes q ∨ ¬ w.CanOpen access (Path.clean q) :=
  same_use_iff (fun h => canOpen_clean_iff hq h access) fun h => h.passes hq hu

/-- Unless only the clean form opens, both open alike. -/
theorem openPath_agree_of_unlinked (hu : w.disk.Unlinked q)
    (h : w.CanOpen access (Path.clean q) ↔ w.CanOpen access q) :
    w.openPath access [] (Path.clean q) = w.openPath access [] q ∨
      ¬ w.CanOpen access (Path.clean q) ∧ ¬ w.CanOpen access q := by
  by_cases hopen : w.CanOpen access q
  · exact openPath_clean_agree hq (hopen.passes hq hu) access
  · exact .inr ⟨mt h.mp hopen, hopen⟩

end

end World

namespace Surroundings
variable {disk : Disk} {here : Surroundings} {target path : Bytes}
  (hpath : Path.resolve here.dir target = path)
include hpath

theorem enter_of_hasDirectory (h : disk.HasDirectory path) :
    here.enter disk target =
      .ok { dir := Path.clean path, env := here.env.set "PWD" (Path.clean path) } := by
  obtain ⟨there, mode, hstat⟩ := h
  simp only [enter, hpath, hstat]
  rfl

theorem enter_of_not_hasDirectory (h : ¬ disk.HasDirectory path) :
    ∃ e, here.enter disk target = .error e := by
  cases he : here.enter disk target with
  | error e => exact ⟨e, rfl⟩
  | ok moved =>
    have hdirectory := (enter_eq_ok he).1
    rw [hpath] at hdirectory
    exact absurd hdirectory h

end Surroundings

namespace Executor
open ChangeDirectory

/-- A content that is not the file behind the standard error, nor the one that events go to. -/
structure Unheard (ex : Executor) (streams : Streams) (w : World) (id : Nat) : Prop where
  error : w.source? streams.error ≠ some (.disk (.content id))
  log : ∀ handle session, ex.recorder = .file handle session →
    w.source? handle ≠ some (.disk (.content id))

/-- Two runs that have the same status and the same effect on the directory and on all files but those
that diagnostics and events go to. -/
structure SameEffect (ex : Executor) (streams : Streams) (w : World) (a b : Status × Running) :
    Prop where
  status : a.1 = b.1
  here : a.2.here = b.2.here
  names : a.2.world.disk.items = b.2.world.disk.items
  contents : ∀ id, ex.Unheard streams w id →
    a.2.world.disk.content id = b.2.world.disk.content id

theorem SameEffect.refl (ex : Executor) (streams : Streams) (w : World) (a : Status × Running) :
    ex.SameEffect streams w a a := ⟨rfl, rfl, rfl, fun _ _ => rfl⟩

/-! ### Changing to a path -/

section
variable {ex : Executor} {streams : Streams} {s : Running}

/-- A cd that goes anywhere or nowhere leaves the files alone. -/
theorem concluded_files (ex : Executor) (streams : Streams) (argv : List Bytes) (s : Running)
    (moved : Except Surroundings.Failure Surroundings) :
    let after := ex.concluded streams argv s (moved.map fun here => ([], here))
    after.2.world.disk.items = s.world.disk.items ∧
      ∀ id, ex.Unheard streams s.world id →
        after.2.world.disk.content id = s.world.disk.content id := by
  cases moved with
  | error e =>
    obtain ⟨-, -, hitems, hcontents⟩ := reported ex.recorder s.world streams.error
      (ex.title ++ ": " ++ (argv.headD [] ++ ": " ++ e.message) ++ "\n")
      (.builtin { command := some argv, status := Status.unknown, error := e.message }) []
    exact ⟨hitems, fun id h => hcontents id h.error h.log⟩
  | ok here => exact ⟨items_record .., fun id h => content_record h.log⟩

/-- Two cds have the same effect if they go to the same place or none goes anywhere. -/
theorem sameEffect_concluded_iff (argv argv' : List Bytes)
    (moved moved' : Except Surroundings.Failure Surroundings) :
    ex.SameEffect streams s.world (ex.concluded streams argv s (moved.map fun here => ([], here)))
        (ex.concluded streams argv' s (moved'.map fun here => ([], here))) ↔
      (∃ here, moved = .ok here ∧ moved' = .ok here) ∨
        (∃ e, moved = .error e) ∧ ∃ e, moved' = .error e := by
  obtain ⟨hnames, hcontents⟩ := concluded_files ex streams argv s moved
  obtain ⟨hnames', hcontents'⟩ := concluded_files ex streams argv' s moved'
  have hsame := hnames.trans hnames'.symm
  have hheld := fun id h => (hcontents id h).trans (hcontents' id h).symm
  constructor
  · intro h
    have hstatus := h.status
    have hhere := h.here
    cases moved with
    | error e =>
      cases moved' with
      | error e' => exact .inr ⟨⟨e, rfl⟩, e', rfl⟩
      | ok here' => exact absurd hstatus unknown_ne_success
    | ok here =>
      cases moved' with
      | error e' => exact absurd hstatus.symm unknown_ne_success
      | ok here' =>
        obtain rfl : here = here' := hhere
        exact .inl ⟨here, rfl, rfl⟩
  · rintro (⟨here, rfl, rfl⟩ | ⟨⟨e, rfl⟩, e', rfl⟩)
    · exact ⟨rfl, rfl, hsame, hheld⟩
    · exact ⟨rfl, rfl, hsame, hheld⟩

/-- To go to a word that is no option is to enter the directory of that name. -/
theorem run_cd_word (args : List Bytes) (files : Redirections) (l r : Tree) {word : Bytes}
    (start : word ≠ dashes) (noFlag : ∀ said, ¬ Flag word said) :
    (ex.execute (.node .plain ("cd" :: word :: args) files l r) streams).run s =
      ex.concluded streams ("cd" :: word :: args) s
        ((s.here.enter s.world.disk word).map fun moved => ([], moved)) := by
  rw [run_execute_cd, request_directory start noFlag]
  rfl

theorem ordinary_of_isAbsolute {q : Bytes} (hq : Path.isAbsolute q = true) : Ordinary q := by
  obtain ⟨rest, rfl⟩ := Path.isAbsolute_iff.mp hq
  exact .inl (by simp)

section
variable {p q : Bytes} (hq : Path.isAbsolute q = true)
  (hres : Path.resolve s.here.dir p = Path.clean q)
include hq hres

/-- A cd to a relative path and to its absolute spelling have the same effect if both or none of the
clean path and the path itself lead to a directory. -/
theorem sameEffect_cd_iff (ex : Executor) (streams : Streams) (args : List Bytes)
    (files : Redirections) (l r : Tree) (start : p ≠ dashes) (noFlag : ∀ said, ¬ Flag p said) :
    ex.SameEffect streams s.world
        ((ex.execute (.node .plain ("cd" :: p :: args) files l r) streams).run s)
        ((ex.execute (.node .plain ("cd" :: q :: args) files l r) streams).run s) ↔
      (s.world.disk.HasDirectory (Path.clean q) ↔ s.world.disk.HasDirectory q) := by
  have hword := ordinary_of_isAbsolute hq
  have hdashes : q ≠ dashes := by
    rintro rfl
    cases hq
  have hresq := Path.resolve_absolute s.here.dir hq
  rw [run_cd_word args files l r start noFlag, run_cd_word args files l r hdashes hword.not_flag,
    sameEffect_concluded_iff]
  by_cases hd : s.world.disk.HasDirectory (Path.clean q)
  · rw [Surroundings.enter_of_hasDirectory hres hd]
    by_cases hd' : s.world.disk.HasDirectory q
    · rw [Surroundings.enter_of_hasDirectory hresq hd', Path.clean_clean hq]
      simp [hd, hd']
    · obtain ⟨e, he⟩ := Surroundings.enter_of_not_hasDirectory hresq hd'
      simp [he, hd, hd']
  · obtain ⟨e, he⟩ := Surroundings.enter_of_not_hasDirectory hres hd
    by_cases hd' : s.world.disk.HasDirectory q
    · rw [Surroundings.enter_of_hasDirectory hresq hd']
      simp [he, hd, hd']
    · obtain ⟨e', he'⟩ := Surroundings.enter_of_not_hasDirectory hresq hd'
      simp [he, he', hd, hd']

end

end

/-! ### Redirecting to a path -/

/-- How the files for a redirection are opened. -/
def opening : CommandShell.Slot → Target
  | .input => ⟨.input, [], .read, "input"⟩
  | .output => ⟨.output, [], .replace 0o644, "output"⟩
  | .append => ⟨.output, [], .extend 0o644, "output"⟩
  | .error => ⟨.error, [], .replace 0o644, "error"⟩

/-- The target that a path is for a redirection. -/
def aimed (slot : CommandShell.Slot) (path : Bytes) : Target := { opening slot with path }

/-- The targets that are opened in front of one. -/
def ahead (files : Redirections) : CommandShell.Slot → List Target
  | .input => []
  | .output => optional (aimed .input files.input)
  | .append => optional (aimed .input files.input) ++ optional (aimed .output files.output)
  | .error => optional (aimed .input files.input) ++ optional (aimed .output files.output) ++
      optional (aimed .append files.append)

/-- The targets that are opened behind one. -/
def behind (files : Redirections) : CommandShell.Slot → List Target
  | .input => optional (aimed .output files.output) ++ optional (aimed .append files.append) ++
      optional (aimed .error files.error)
  | .output => optional (aimed .append files.append) ++ optional (aimed .error files.error)
  | .append => optional (aimed .error files.error)
  | .error => []

theorem targets_put (files : Redirections) (slot : CommandShell.Slot) {path : Bytes}
    (hne : path ≠ []) :
    targets (files.put slot path) = ahead files slot ++ aimed slot path :: behind files slot := by
  have hset (target : Target) (h : target.path = path) : optional target = [target] :=
    if_neg (by simpa [h] using hne)
  rw [targets_eq]
  cases slot <;> simp [Redirections.put, ahead, behind, aimed, opening, hset]

section
variable {ex : Executor} {argv : List Bytes} {streams : Streams} {s : Running} {opened : World}
  {before rest : List Target} {grants : List Grant}

/-- Targets that do not all open settle what opening more of them comes to. -/
theorem run_openTargets_refused (h : ¬ ∃ grants after, Opens s.here.dir s.world before grants after) :
    ∃ after, ∀ rest, (ex.openTargets argv (before ++ rest) streams []).run s =
      (Option.none, after) := by
  obtain ⟨first, failing, more, grants, world, e, refused, rfl, hopens, hr⟩ :=
    (opens_or_refused s.here.dir s.world before).resolve_left h
  refine ⟨ex.redirectionFailed argv (handOver first grants streams) { s with world := refused }
    failing (Path.resolve s.here.dir failing.path) e (grants.map Grant.handle), fun rest => ?_⟩
  rw [List.append_assoc, run_openTargets_opens hopens, List.cons_append, run_openTargets_error hr]
  rfl

theorem TargetRefused.sameEffect {failing failing' : Target} {e e' : PathError}
    {a b : Status × Running}
    (h : TargetRefused ex argv streams s before grants opened failing e a)
    (h' : TargetRefused ex argv streams s before grants opened failing' e' b) :
    ex.SameEffect streams opened a b where
  status := h.status.trans h'.status.symm
  here := h.here.trans h'.here.symm
  names := h.names.trans h'.names.symm
  contents id hid := (h.contents id hid.error hid.log).trans (h'.contents id hid.error hid.log).symm

section
variable {files : Redirections} {slot : CommandShell.Slot} {p q : Bytes} (hp : p ≠ []) (hq : q ≠ [])
include hp hq

/-- Nothing depends on a target if one in front of it is refused. -/
theorem redirected_of_refused (body : Streams → Run Status)
    (h : ¬ ∃ grants after, Opens s.here.dir s.world (ahead files slot) grants after) :
    (ex.redirected argv (files.put slot p) streams body).run s =
      (ex.redirected argv (files.put slot q) streams body).run s := by
  obtain ⟨after, hafter⟩ := run_openTargets_refused h
  rw [run_redirected, run_redirected, targets_put files slot hp, targets_put files slot hq, hafter,
    hafter]

/-- Targets that open alike, or are both refused, have the same effect. -/
theorem sameEffect_redirected (body : Streams → Run Status)
    (h : Opens s.here.dir s.world (ahead files slot) grants opened)
    (same : opened.openPath (opening slot).access [] (Path.resolve s.here.dir p) =
        opened.openPath (opening slot).access [] (Path.resolve s.here.dir q) ∨
      ¬ opened.CanOpen (opening slot).access (Path.resolve s.here.dir p) ∧
        ¬ opened.CanOpen (opening slot).access (Path.resolve s.here.dir q)) :
    ex.SameEffect streams opened ((ex.redirected argv (files.put slot p) streams body).run s)
      ((ex.redirected argv (files.put slot q) streams body).run s) := by
  have htargets := targets_put files slot hp
  have htargets' := targets_put files slot hq
  by_cases hopen : opened.CanOpen (opening slot).access (Path.resolve s.here.dir p)
  · -- Both open, and nothing else tells the runs apart.
    obtain ⟨handle, after, ho⟩ := hopen
    have ho' := (same.resolve_right fun h => h.1 ⟨handle, after, ho⟩).symm.trans ho
    have hrest (path : Bytes) (ho : opened.openPath (opening slot).access []
        (Path.resolve s.here.dir path) = (.ok handle, after)) :
        (ex.openTargets argv (ahead files slot ++ aimed slot path :: behind files slot)
          streams []).run s =
        (ex.openTargets argv (behind files slot)
          ((opening slot).slot.set (handOver (ahead files slot) grants streams) handle)
          ([] ++ grants.map Grant.handle ++ [handle])).run { s with world := after } := by
      rw [run_openTargets_opens h]
      exact run_openTargets_ok ho
    have hrun : (ex.redirected argv (files.put slot p) streams body).run s =
        (ex.redirected argv (files.put slot q) streams body).run s := by
      rw [run_redirected, run_redirected, htargets, htargets', hrest p ho, hrest q ho']
    rw [hrun]
    exact .refl ..
  · have hopen' : ¬ opened.CanOpen (opening slot).access (Path.resolve s.here.dir q) := by
      obtain same | ⟨-, h'⟩ := same
      · rwa [World.CanOpen, ← same]
      · exact h'
    obtain ⟨e, after, ho⟩ := World.exists_error_of_not_canOpen hopen
    obtain ⟨e', after', ho'⟩ := World.exists_error_of_not_canOpen hopen'
    have hrefused : TargetRefused ex argv streams s (ahead files slot) grants opened (aimed slot p) e
        ((ex.redirected argv (files.put slot p) streams body).run s) :=
      targetRefused_of_opens htargets h ho
    exact hrefused.sameEffect (targetRefused_of_opens htargets' h ho')

end

end

/-! ### Both uses of a path -/

/-- Relative paths and their absolute spellings. A cd to either, and a redirection from or to either, have
the same effect if all parts of the absolute spelling that are no names find what they need. Where no
parent reference goes back from behind a link they also agree if not even the clean form can be used,
and in no other case. -/
theorem relative_paths_agree (s : Running) {p : Bytes} (habs : Path.isAbsolute s.here.dir = true)
    (hp : Path.isAbsolute p = false) (hne : p ≠ []) :
    let q := s.here.dir ++ 47 :: p
    let disk := s.world.disk
    (∀ (ex : Executor) (streams : Streams) (args : List Bytes) (files : Redirections) (l r : Tree),
      p ≠ dashes → (∀ said, ¬ Flag p said) →
      let cd (path : Bytes) :=
        (ex.execute (.node .plain ("cd" :: path :: args) files l r) streams).run s
      (disk.Passes q → ex.SameEffect streams s.world (cd p) (cd q)) ∧
      (disk.Unlinked q → (ex.SameEffect streams s.world (cd p) (cd q) ↔
        disk.Passes q ∨ ¬ disk.HasDirectory (Path.clean q)))) ∧
    ∀ (ex : Executor) (streams : Streams) (kind : Kind) (argv : List Bytes)
      (body : Streams → Run Status) (l r : Tree) (files : Redirections) (slot : CommandShell.Slot),
      (∀ files, Redirects ex (.node kind argv files l r) argv files body) →
      let run (path : Bytes) :=
        (ex.execute (.node kind argv (files.put slot path) l r) streams).run s
      ((¬ ∃ grants opened, Opens s.here.dir s.world (ahead files slot) grants opened) →
        run p = run q) ∧
      ∀ grants opened, Opens s.here.dir s.world (ahead files slot) grants opened →
        let opens (path : Bytes) := opened.CanOpen (opening slot).access path
        (opened.disk.Passes q → ex.SameEffect streams opened (run p) (run q)) ∧
        (opened.disk.Unlinked q →
          ((opens (Path.clean q) ↔ opens q) ↔
            opened.disk.Passes q ∨ ¬ opens (Path.clean q)) ∧
          ((opens (Path.clean q) ↔ opens q) → ex.SameEffect streams opened (run p) (run q)) ∧
          (¬ (opens (Path.clean q) ↔ opens q) → (run q).1 = 255)) := by
  intro q disk
  have hq : Path.isAbsolute q = true := Path.isAbsolute_append habs _
  have hqne : q ≠ [] := by simp [q]
  have hres : Path.resolve s.here.dir p = Path.clean q := Path.resolve_relative habs hp hne
  have hresq := Path.resolve_absolute s.here.dir hq
  constructor
  · intro ex streams args files l r start noFlag cd
    have hiff := sameEffect_cd_iff hq hres ex streams args files l r start noFlag
    exact ⟨fun h => hiff.mpr (h.hasDirectory_iff hq), fun hu => hiff.trans (hu.hasDirectory_iff hq)⟩
  · intro ex streams kind argv body l r files slot hredirects run
    have hrun (path : Bytes) : run path =
        (ex.redirected argv (files.put slot path) streams body).run s :=
      (hredirects _).run_eq streams s
    refine ⟨fun h => ?_, ?_⟩
    · rw [hrun, hrun]
      exact redirected_of_refused hne hqne body h
    intro grants opened h opens
    have hsame : (opened.openPath (opening slot).access [] (Path.clean q) =
        opened.openPath (opening slot).access [] q ∨ ¬ opens (Path.clean q) ∧ ¬ opens q) →
        ex.SameEffect streams opened (run p) (run q) := by
      intro hsame
      rw [hrun, hrun]
      refine sameEffect_redirected hne hqne body h ?_
      rwa [hres, hresq]
    refine ⟨fun hpass => hsame (World.openPath_clean_agree hq hpass _), fun hu =>
      ⟨World.canOpen_iff_of_unlinked hq hu _,
        fun hiff => hsame (World.openPath_agree_of_unlinked hq hu hiff), fun hiff => ?_⟩⟩
    have hno : ¬ opens q := fun hopen =>
      hiff (World.canOpen_clean_iff hq (hopen.passes hq hu) (opening slot).access)
    obtain ⟨e, after, ho⟩ := World.exists_error_of_not_canOpen hno
    rw [← hresq] at ho
    rw [hrun]
    exact (targetRefused_of_opens (targets_put files slot hqne) h ho).status

private def walker : Executor := { name := "sh", programs := fun _ => .exit 0 }

/-- A disk with a directory and a file below a directory. -/
private def hall : Disk :=
  ((({} : Disk).put ["w"] (.directory 0o755)).put ["w", "a"] (.directory 0o755)).putFile ["w", "in"]
    0o644 "text"

private def atHall : Running := ⟨⟨"/w", .empty⟩, Sandbox.start hall []⟩

/-- One goes back from a directory that is there, and not from one that is missing. -/
theorem relative_paths_agree_detour :
    let cd (path : Bytes) :=
      (walker.execute (.plain ["cd", path]) Sandbox.streams).run atHall
    let group (path : Bytes) :=
      (walker.execute (.subshell (.plain ["cd", "a"]) { input := path }) Sandbox.streams).run atHall
    walker.SameEffect Sandbox.streams atHall.world (cd "a/..") (cd "/w/a/..") ∧
      ¬ walker.SameEffect Sandbox.streams atHall.world (cd "no/..") (cd "/w/no/..") ∧
      walker.SameEffect Sandbox.streams atHall.world (group "a/../in") (group "/w/a/../in") ∧
      (group "no/../in").1 = Status.success ∧ (group "/w/no/../in").1 = 255 := by
  have granted : ((walker.execute (.subshell (.plain ["cd", "a"]) { input := "no/../in" })
    Sandbox.streams).run atHall).1 = Status.success := by cbv
  have refused : ((walker.execute (.subshell (.plain ["cd", "a"]) { input := "/w/no/../in" })
    Sandbox.streams).run atHall).1 = 255 := by cbv
  intro cd group
  have noFlag {word : Bytes} (h : word.head? ≠ some 45) (said : Bool) : ¬ Flag word said :=
    Ordinary.not_flag (.inl h) said
  have hroot : atHall.world.disk.Meets ⟨true, []⟩ := ⟨[], 0o755, by cbv⟩
  have ha : atHall.world.disk.Meets ⟨false, [("w" : Bytes), "a"]⟩ := ⟨_, 0o755, by cbv⟩
  have hback : atHall.world.disk.Passes "/w/a/.." := by
    have hneeds : Path.needs [] (Bytes.splitOn 47 "/w/a/..") =
        [⟨true, []⟩, ⟨false, [("w" : Bytes), "a"]⟩] := by decide
    exact ⟨⟨by decide, by decide, by decide⟩, by simp [hneeds, hroot, ha]⟩
  have hin : atHall.world.disk.Passes "/w/a/../in" := by
    have hneeds : Path.needs [] (Bytes.splitOn 47 "/w/a/../in") =
        [⟨true, []⟩, ⟨false, [("w" : Bytes), "a"]⟩] := by decide
    exact ⟨⟨by decide, by decide, by decide⟩, by simp [hneeds, hroot, ha]⟩
  obtain ⟨hcd, -⟩ := relative_paths_agree atHall (by decide) (p := "a/..") (by decide) (by decide)
  obtain ⟨hno, -⟩ := relative_paths_agree atHall (by decide) (p := "no/..") (by decide) (by decide)
  obtain ⟨-, hgroup⟩ := relative_paths_agree atHall (by decide) (p := "a/../in") (by decide) (by decide)
  refine ⟨?_, ?_, ?_, granted, refused⟩
  · obtain ⟨hpass, -⟩ := hcd walker Sandbox.streams [] .none .absent .absent (by decide)
      (noFlag (by decide))
    exact hpass hback
  · obtain ⟨-, hiff⟩ := hno walker Sandbox.streams [] .none .absent .absent (by decide)
      (noFlag (by decide))
    have hneeds : Path.needs [] (Bytes.splitOn 47 "/w/no/..") =
        [⟨true, []⟩, ⟨false, [("w" : Bytes), "no"]⟩] := by decide
    have hfree : atHall.world.disk.find false [] (Place.path [("w" : Bytes), "no"]) =
        .ok (.free [("w" : Bytes), "no"]) := by cbv
    have hunlinked : atHall.world.disk.Unlinked "/w/no/.." := by
      simp [Disk.Unlinked, hneeds, hfree]
    have hdirectory : atHall.world.disk.HasDirectory (Path.clean "/w/no/..") :=
      ⟨[("w" : Bytes)], 0o755, by cbv⟩
    intro heffect
    obtain hpass | hnone := (hiff hunlinked).mp heffect
    · obtain ⟨there, mode, hfind⟩ := hpass.meets ⟨false, [("w" : Bytes), "no"]⟩ (by
        change _ ∈ Path.needs [] (Bytes.splitOn 47 "/w/no/..")
        simp [hneeds])
      rw [hfree] at hfind
      cases hfind
    · exact hnone hdirectory
  · obtain ⟨-, hopened⟩ := hgroup walker Sandbox.streams .subshell [] _ (.plain ["cd", "a"]) .absent
      .none .input fun files => .group [] files _ _
    exact (hopened [] atHall.world (.none _)).1 hin

end Executor

end CommandShell
