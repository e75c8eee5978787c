import CommandShell.Proofs.NamelessContent
import CommandShell.Proofs.SettledRun

/-! Streams that are out of reach. If nothing that a run uses leads to the bytes behind an open file, then
the run goes with any other bytes there and any other place in the file: what the world does and the
exchange of the bytes can be done in either order. -/
namespace CommandShell

/-- Another place reached in an open file, and other bytes for something that can be read. A pipe
also gets other room. -/
structure Swap where
  handle : Nat
  offset : Nat
  source : Source
  data : Bytes := []
  room : Option Nat := none

namespace Swap
variable (x : Swap)

def onDisk (d : Disk) : Disk :=
  match x.source with
  | .disk (.content id) => d.setContent id x.data
  | _ => d

def onFile (entry : Nat × OpenFile) : Nat × OpenFile :=
  if entry.1 == x.handle then (entry.1, { entry.2 with offset := x.offset }) else entry

def onPipe (entry : Nat × Pipe) : Nat × Pipe :=
  if x.source = .pipe entry.1 then (entry.1, { waiting := x.data, room := x.room }) else entry

/-- The world with the other bytes. -/
def apply (w : World) : World :=
  { w with disk := x.onDisk w.disk, files := w.files.map x.onFile, pipes := w.pipes.map x.onPipe }

/-- The bytes are not in this source. Devices and directories hold no bytes. -/
def Misses : Source → Prop
  | .disk (.content id) => x.source ≠ .disk (.content id)
  | .pipe n => x.source ≠ .pipe n
  | .disk _ => True

/-- An open file that neither is the one that is changed nor leads to the bytes. -/
structure Clear (w : World) (k : Nat) : Prop where
  handle : k ≠ x.handle
  source : ∀ entry ∈ w.table, entry.1 = k → x.Misses entry.2.1

/-- No path leads to the bytes, and what will be opened is not the file that is changed. -/
structure Hidden (w : World) : Prop where
  handle : x.handle < w.fresh
  content : ∀ id, x.source = .disk (.content id) → w.disk.Nameless id
  pipe : ∀ n, x.source = .pipe n → n < w.fresh

/-- Nor is any open file that is held a way to the bytes. -/
structure Unseen (w : World) (held : List Nat) : Prop extends Hidden x w where
  numbered : w.Numbered
  held : ∀ k ∈ held, x.Clear w k

variable {x}

theorem Clear.misses {w : World} {k : Nat} (h : x.Clear w k) {f : OpenFile}
    (hf : w.file? k = some f) : x.Misses f.source := by
  obtain ⟨entry, hfind, rfl⟩ := Option.map_eq_some_iff.mp hf
  have hk : entry.1 = k := by simpa using List.find?_some hfind
  exact h.source _ (List.mem_map_of_mem (List.mem_of_find?_eq_some hfind)) hk

theorem Clear.of_table {w w' : World} {k : Nat} (h : x.Clear w k)
    (ht : ∀ entry ∈ w'.table, entry ∈ w.table ∨ x.Misses entry.2.1) : x.Clear w' k where
  handle := h.handle
  source entry hm hk := (ht entry hm).elim (fun hm => h.source entry hm hk) id

theorem Hidden.later {w w' : World} (h : x.Hidden w) (hf : w.fresh ≤ w'.fresh)
    (hd : w.disk.KeepsNameless w'.disk) : x.Hidden w' where
  handle := Nat.lt_of_lt_of_le h.handle hf
  content id hid := hd.nameless id (h.content id hid)
  pipe n hn := Nat.lt_of_lt_of_le (h.pipe n hn) hf

/-- New files are clear if they are no way to the bytes. -/
theorem Hidden.clear_new {w w' : World} (h : x.Hidden w) (hn : w.Numbered)
    (ht : ∀ entry ∈ w'.table, entry ∈ w.table ∨ x.Misses entry.2.1) {k : Nat} (hk : w.fresh ≤ k) :
    x.Clear w' k where
  handle := by
    have := h.handle
    omega
  source entry hm he := by
    rcases ht entry hm with hm | hm
    · have := hn.files entry hm
      omega
    · exact hm

section
variable {w w' : World} {held : List Nat} (h : x.Unseen w held)
include h

theorem Unseen.subset {fewer : List Nat} (hs : fewer ⊆ held) : x.Unseen w fewer :=
  { h with held := fun k hk => h.held k (hs hk) }

variable (hd : w.disk.KeepsNameless w'.disk)
include hd

/-- What opens no way to the bytes keeps them out of reach. -/
theorem Unseen.of_table (hn : w'.Numbered) (hf : w.fresh ≤ w'.fresh)
    (ht : ∀ entry ∈ w'.table, entry ∈ w.table ∨ x.Misses entry.2.1) : x.Unseen w' held where
  toHidden := h.toHidden.later hf hd
  numbered := hn
  held k hk := (h.held k hk).of_table ht

theorem Unseen.later (hw : w.Within w') : x.Unseen w' held :=
  h.of_table hd (h.numbered.within hw) hw.fresh fun _ hm => .inl (hw.table hm)

end

/-! The disk. -/

section Disk
variable (x) (d : Disk)

theorem onDisk_cases :
    (∃ id, x.source = .disk (.content id) ∧ x.onDisk = fun d => d.setContent id x.data) ∨
      x.onDisk = id := by
  by_cases h : ∃ id, x.source = .disk (.content id)
  · obtain ⟨id, h⟩ := h
    exact .inl ⟨id, h, by funext d; simp only [onDisk, h]⟩
  · refine .inr (funext fun d => ?_)
    unfold onDisk
    split
    · next id hid => exact absurd ⟨id, hid⟩ h
    · rfl

theorem map_id_except {α ε : Type} (r : Except ε α) : r.map id = r := by
  cases r <;> rfl

theorem remove_onDisk (cwd : Place) (path : Bytes) :
    (x.onDisk d).remove cwd path = (d.remove cwd path).map x.onDisk := by
  obtain ⟨id, -, h⟩ | h := x.onDisk_cases
  · rw [h]
    exact d.remove_setContent x.data cwd path
  · rw [h, map_id_except]
    rfl

theorem makeDirectory_onDisk (mode : Nat) (cwd : Place) (path : Bytes) :
    (x.onDisk d).makeDirectory mode cwd path = (d.makeDirectory mode cwd path).map x.onDisk := by
  obtain ⟨id, -, h⟩ | h := x.onDisk_cases
  · rw [h]
    exact d.makeDirectory_setContent x.data mode cwd path
  · rw [h, map_id_except]
    rfl

theorem lookup_onDisk (env : Environment) (dir name : Bytes) :
    Search.lookup (x.onDisk d) env dir name = Search.lookup d env dir name := by
  obtain ⟨id, -, h⟩ | h := x.onDisk_cases <;> rw [h]
  · exact Search.lookup_setContent x.data d env dir name
  · rfl

theorem cd_onDisk (here : Surroundings) (args : List Bytes) :
    ChangeDirectory.run (x.onDisk d) here args = ChangeDirectory.run d here args := by
  obtain ⟨id, -, h⟩ | h := x.onDisk_cases <;> rw [h]
  · exact ChangeDirectory.run_setContent x.data d here args
  · rfl

variable {x d} {id : Nat} (hid : x.source ≠ .disk (.content id))
include hid

theorem content_onDisk : (x.onDisk d).content id = d.content id := by
  obtain ⟨other, hsource, h⟩ | h := x.onDisk_cases <;> rw [h]
  · exact d.content_setContent_of_ne x.data fun he => hid (by rw [hsource, he])
  · rfl

theorem setContent_onDisk (data : Bytes) :
    (x.onDisk d).setContent id data = x.onDisk (d.setContent id data) := by
  obtain ⟨other, hsource, h⟩ | h := x.onDisk_cases <;> rw [h]
  · exact d.setContent_comm x.data (fun he => hid (by rw [hsource, he])) data
  · rfl

omit hid
variable (hn : ∀ id, x.source = .disk (.content id) → d.Nameless id)
include hn

theorem readFile_onDisk (cwd : Place) (path : Bytes) :
    (x.onDisk d).readFile cwd path = d.readFile cwd path := by
  obtain ⟨id, hsource, h⟩ | h := x.onDisk_cases <;> rw [h]
  · exact (hn id hsource).readFile_setContent x.data cwd path
  · rfl

theorem openPath_onDisk (access : Disk.Access) (cwd : Place) (path : Bytes) :
    (x.onDisk d).openPath access cwd path =
      (d.openPath access cwd path).map fun opened => (opened.1, x.onDisk opened.2) := by
  obtain ⟨id, hsource, h⟩ | h := x.onDisk_cases <;> rw [h]
  · exact (hn id hsource).openPath_setContent x.data access cwd path
  · exact (map_id_except _).symm

theorem prepare_onDisk (dir path : Bytes) (argv env : List Bytes) :
    Launch.prepare (x.onDisk d) dir path argv env = Launch.prepare d dir path argv env := by
  obtain ⟨id, hsource, h⟩ | h := x.onDisk_cases <;> rw [h]
  · exact Launch.prepare_setContent x.data (hn id hsource) dir path argv env
  · rfl

end Disk

/-! Open files and pipes. -/

section World
variable (x) (w : World) {k n : Nat}

theorem onFile_fst (entry : Nat × OpenFile) : (x.onFile entry).1 = entry.1 := by
  unfold onFile
  split <;> rfl

theorem onPipe_fst (entry : Nat × Pipe) : (x.onPipe entry).1 = entry.1 := by
  unfold onPipe
  split <;> rfl

theorem close_apply (k : Nat) : (x.apply w).close k = x.apply (w.close k) := by
  simp only [World.close, World.tell, apply, List.filter_map, Function.comp_def, onFile_fst]

theorem dropPipe_apply (n : Nat) : (x.apply w).dropPipe n = x.apply (w.dropPipe n) := by
  simp only [World.dropPipe, apply, List.filter_map, Function.comp_def, onPipe_fst]

variable {x w}

theorem unbind_apply (h : x.source ≠ .pipe n) : (x.apply w).unbind n = x.apply (w.unbind n) := by
  simp only [World.unbind, apply, List.map_map]
  congr 1
  refine List.map_congr_left fun entry _ => ?_
  simp only [Function.comp, onPipe]
  by_cases hn : entry.1 = n <;> by_cases hx : x.source = .pipe entry.1 <;> simp_all

theorem file?_apply (h : k ≠ x.handle) : (x.apply w).file? k = w.file? k := by
  refine (find?_map_key w.files k (g := id) x.onFile_fst fun f => ?_).trans (congrFun Option.map_id _)
  simp [onFile, h]

theorem pipe?_apply (h : x.source ≠ .pipe n) : (x.apply w).pipe? n = w.pipe? n := by
  refine (find?_map_key w.pipes n (g := id) x.onPipe_fst fun p => ?_).trans (congrFun Option.map_id _)
  simp [onPipe, h]

theorem seek_apply (h : k ≠ x.handle) (offset : Nat) :
    (x.apply w).seek k offset = x.apply (w.seek k offset) := by
  simp only [World.seek, apply, List.map_map]
  congr 1
  refine List.map_congr_left fun entry _ => ?_
  simp only [Function.comp, onFile]
  by_cases hk : entry.1 = k <;> by_cases hx : entry.1 = x.handle <;> simp_all

theorem setPipe_apply (h : x.source ≠ .pipe n) (p : Pipe) :
    (x.apply w).setPipe n p = x.apply (w.setPipe n p) := by
  simp only [World.setPipe, apply, List.map_map]
  congr 1
  refine List.map_congr_left fun entry _ => ?_
  simp only [Function.comp, onPipe]
  by_cases hn : entry.1 = n <;> by_cases hx : x.source = .pipe entry.1 <;> simp_all

end World

/-! Reading and writing through files that are clear. -/

section Clear
variable {w : World} {k : Nat} (h : x.Clear w k)
include h

theorem available_apply : (x.apply w).available k = w.available k := by
  simp only [World.available, file?_apply h.handle]
  split
  · next id offset append hf => exact congrArg (List.drop offset) (content_onDisk (h.misses hf))
  · next n offset append hf => rw [pipe?_apply (h.misses hf)]
  · rfl

theorem room_apply : (x.apply w).room k = w.room k := by
  simp only [World.room, file?_apply h.handle]
  split
  · next n offset append hf => rw [pipe?_apply (h.misses hf)]
  · rfl

theorem consume_apply (n : Nat) : (x.apply w).consume k n = x.apply (w.consume k n) := by
  simp only [World.consume, file?_apply h.handle]
  cases hf : w.file? k with
  | none => rfl
  | some f =>
    have hm := h.misses hf
    dsimp only
    split
    · exact seek_apply h.handle _
    · rfl
    · next m hsource =>
      rw [hsource] at hm
      rw [pipe?_apply hm]
      cases w.pipe? m with
      | none => rfl
      | some p => exact setPipe_apply hm _

theorem write_apply (s : Bytes) :
    (x.apply w).write k s = ((w.write k s).1, x.apply (w.write k s).2) := by
  simp only [World.write, file?_apply h.handle]
  split
  · rfl
  · cases hf : w.file? k with
    | none => rfl
    | some f =>
      have hm := h.misses hf
      dsimp only
      split
      · next id hsource =>
        rw [hsource] at hm
        have hc : (x.apply w).disk.content id = w.disk.content id := content_onDisk hm
        have hd (data : Bytes) : { x.apply w with disk := (x.apply w).disk.setContent id data } =
            x.apply { w with disk := w.disk.setContent id data } := by
          simp only [apply, setContent_onDisk hm]
        rw [hc, hd, seek_apply h.handle]
      · rfl
      · next n hsource =>
        rw [hsource] at hm
        rw [pipe?_apply hm]
        cases w.pipe? n with
        | none => rfl
        | some p =>
          dsimp only
          split
          · rw [setPipe_apply hm]
          · split <;> rw [setPipe_apply hm]

theorem print_apply (s : Bytes) : (x.apply w).print k s = x.apply (w.print k s) := by
  simp only [World.print, write_apply h]

theorem copy_apply {target : Nat} (ht : x.Clear w target) :
    (x.apply w).copy k target = ((w.copy k target).1, x.apply (w.copy k target).2) := by
  have taken (n : Nat) (s : Bytes) : ((x.apply w).consume k n).write target s =
      (((w.consume k n).write target s).1, x.apply ((w.consume k n).write target s).2) := by
    rw [consume_apply h]
    exact write_apply (ht.of_table fun _ hm => .inl ((w.quiet_consume k n).table ▸ hm)) s
  simp only [World.copy, available_apply h, room_apply ht, taken]
  split
  · rfl
  · split <;> rfl

end Clear

end Swap

/-! What each step of a program keeps, the whole run keeps. -/

section Steps
variable {R : World → World → Prop} (htrans : ∀ {a b c}, R a b → R b c → R a c)
  (hconsume : ∀ w h n, R w (w.consume h n)) (hwrite : ∀ w h s, R w (w.write h s).2)
include htrans hconsume hwrite

theorem World.copy_rel (w : World) (source target : Nat) : R w (w.copy source target).2 := by
  have taken (n : Nat) (s : Bytes) : R w ((w.consume source n).write target s).2 :=
    htrans (hconsume ..) (hwrite ..)
  unfold copy
  dsimp only
  split
  · exact taken ..
  · split <;> exact taken ..

theorem Program.run_rel (hrefl : ∀ w, R w w)
    (hremove : ∀ w dir path, R w (change w fun d => d.remove dir path).2)
    (hmake : ∀ w dir path, R w (change w fun d => d.makeDirectory 0o755 dir path).2)
    (streams : Streams) (dir : Place) (p : Program) (w : World) :
    R w (p.run streams dir w).2 := by
  induction p generalizing w with
  | exit | die => exact hrefl w
  | read amount next ih => exact htrans (hconsume ..) (ih ..)
  | copy next ih =>
    have hc := World.copy_rel (R := R) htrans hconsume hwrite w streams.input streams.output
    rw [run]
    split <;> simp_all only
    · exact htrans hc (ih _)
  | print text next ih =>
    have hw := hwrite w streams.output text
    rw [run]
    split <;> simp_all only
    · exact htrans hw (ih _)
  | complain text next ih =>
    have hw := hwrite w streams.error text
    rw [run]
    split <;> simp_all only
    · exact htrans hw (ih _)
  | readFile path next ih => exact ih ..
  | remove path next ih => exact htrans (hremove w dir path) (ih ..)
  | makeDirectory path next ih => exact htrans (hmake w dir path) (ih ..)

end Steps

/-! What programs and recorders do gives no nameless content a name. -/

namespace World
variable (w : World)

theorem keepsNameless_consume (h n : Nat) : w.disk.KeepsNameless (w.consume h n).disk := by
  have hd : (w.consume h n).disk = w.disk := by
    unfold consume
    split
    · split
      · rfl
      · rfl
      · split <;> rfl
    · rfl
  rw [hd]
  exact .refl _

theorem keepsNameless_write (h : Nat) (s : Bytes) : w.disk.KeepsNameless (w.write h s).2.disk := by
  unfold write
  split
  · exact .refl _
  · split
    · split
      · exact .setContent ..
      · exact .refl _
      · split
        · exact .refl _
        · split
          · exact .refl _
          · split <;> exact .refl _
    · exact .refl _

theorem keepsNameless_copy (source target : Nat) :
    w.disk.KeepsNameless (w.copy source target).2.disk :=
  copy_rel (R := fun w w' => w.disk.KeepsNameless w'.disk) .trans keepsNameless_consume
    keepsNameless_write w source target

theorem keepsNameless_change {f : Disk → Except PathError Disk}
    (hf : ∀ d, f w.disk = .ok d → w.disk.KeepsNameless d) :
    w.disk.KeepsNameless (Program.change w f).2.disk := by
  unfold Program.change
  split
  · next d hd => exact hf d hd
  · exact .refl _

theorem keepsNameless_remove (dir : Place) (path : Bytes) :
    w.disk.KeepsNameless (Program.change w fun d => d.remove dir path).2.disk :=
  w.keepsNameless_change fun _ hd => ⟨fun _ hid => hid.remove hd⟩

theorem keepsNameless_makeDirectory (dir : Place) (path : Bytes) :
    w.disk.KeepsNameless (Program.change w fun d => d.makeDirectory 0o755 dir path).2.disk :=
  w.keepsNameless_change fun _ hd => ⟨fun _ hid => hid.makeDirectory hd⟩

theorem keepsNameless_record (recorder : Recorder) (subject : Bytes) (e : Event) :
    w.disk.KeepsNameless (recorder.record subject e w).disk := by
  cases recorder with
  | silent | broken | memory => exact .refl _
  | file handle session => exact w.keepsNameless_write ..

theorem keepsNameless_openPath (access : Disk.Access) (cwd : Place) (path : Bytes) :
    w.disk.KeepsNameless (w.openPath access cwd path).2.disk := by
  unfold openPath
  dsimp only
  split
  · exact .refl _
  · split
    · exact .refl _
    · next hd => exact ⟨fun id hid => (hid.openPath hd).1⟩

theorem keepsNameless_openPipe (room : Option Nat) :
    w.disk.KeepsNameless (w.openPipe room).2.disk := by
  unfold openPipe
  dsimp only
  split <;> exact .refl _

theorem keepsNameless_run (streams : Streams) (dir : Place) (p : Program) :
    w.disk.KeepsNameless (p.run streams dir w).2.disk :=
  Program.run_rel (R := fun w w' => w.disk.KeepsNameless w'.disk) .trans keepsNameless_consume
    keepsNameless_write (fun w => .refl w.disk) keepsNameless_remove keepsNameless_makeDirectory
    streams dir p w

end World

/-- The streams of a command are among the open files that are held. -/
structure Streams.Among (held : List Nat) (streams : Streams) : Prop where
  input : streams.input ∈ held
  output : streams.output ∈ held
  error : streams.error ∈ held

/-! Programs, recorders and openings go with the exchange. -/

namespace Swap
variable {x : Swap} {w : World} {held : List Nat}

theorem read_apply {k : Nat} (h : x.Clear w k) (amount : Bytes → Nat) :
    (x.apply w).read k amount = ((w.read k amount).1, x.apply (w.read k amount).2) := by
  simp only [World.read, available_apply h, consume_apply h]

theorem change_apply (f : Disk → Except PathError Disk)
    (hf : f (x.onDisk w.disk) = (f w.disk).map x.onDisk) :
    Program.change (x.apply w) f =
      ((Program.change w f).1, x.apply (Program.change w f).2) := by
  have hd : f (x.apply w).disk = (f w.disk).map x.onDisk := hf
  unfold Program.change
  rw [hd]
  cases f w.disk <;> rfl

/-- A program that cannot get at the bytes does the same whatever they are. -/
theorem run_apply {streams : Streams} (hs : streams.Among held) (dir : Place) (p : Program)
    (h : x.Unseen w held) :
    p.run streams dir (x.apply w) =
      ((p.run streams dir w).1, x.apply (p.run streams dir w).2) := by
  induction p generalizing w with
  | exit | die => rfl
  | read amount next ih =>
    simp only [Program.run, read_apply (h.held _ hs.input)]
    exact ih _ (h.later (w.keepsNameless_consume ..) (w.quiet_consume ..).settled.within)
  | copy next ih =>
    have hnext := h.later (w.keepsNameless_copy streams.input streams.output)
      (w.quiet_copy streams.input streams.output).settled.within
    rw [Program.run, Program.run, copy_apply (h.held _ hs.input) (h.held _ hs.output)]
    generalize w.copy streams.input streams.output = p at hnext
    obtain ⟨_ | _, u⟩ := p
    · rfl
    · exact ih hnext
  | print text next ih =>
    have hnext := h.later (w.keepsNameless_write streams.output text)
      (w.quiet_write streams.output text).settled.within
    rw [Program.run, Program.run, write_apply (h.held _ hs.output)]
    generalize w.write streams.output text = p at hnext
    obtain ⟨_ | _, u⟩ := p
    · rfl
    · exact ih hnext
  | complain text next ih =>
    have hnext := h.later (w.keepsNameless_write streams.error text)
      (w.quiet_write streams.error text).settled.within
    rw [Program.run, Program.run, write_apply (h.held _ hs.error)]
    generalize w.write streams.error text = p at hnext
    obtain ⟨_ | _, u⟩ := p
    · rfl
    · exact ih hnext
  | readFile path next ih =>
    have hr : (x.apply w).disk.readFile dir path = w.disk.readFile dir path :=
      readFile_onDisk h.content dir path
    simp only [Program.run, hr]
    exact ih _ h
  | remove path next ih =>
    have hq := (w.quiet_change fun d => d.remove dir path).settled.within
    have hd := w.keepsNameless_remove dir path
    simp only [Program.run, change_apply (fun d => d.remove dir path) (x.remove_onDisk w.disk dir path)]
    exact ih _ (h.later hd hq)
  | makeDirectory path next ih =>
    have hq := (w.quiet_change fun d => d.makeDirectory 0o755 dir path).settled.within
    have hd := w.keepsNameless_makeDirectory dir path
    simp only [Program.run, change_apply (fun d => d.makeDirectory 0o755 dir path)
      (x.makeDirectory_onDisk w.disk 0o755 dir path)]
    exact ih _ (h.later hd hq)

theorem record_apply {recorder : Recorder} (h : ∀ k ∈ recorder.file?, x.Clear w k)
    (subject : Bytes) (e : Event) :
    recorder.record subject e (x.apply w) = x.apply (recorder.record subject e w) := by
  cases recorder with
  | silent | broken | memory => rfl
  | file handle session => exact print_apply (h handle rfl) _

/-! What is opened is a new file, and no way to the bytes. -/

theorem add_apply (h : x.handle < w.fresh) (f : OpenFile) :
    (x.apply w).add f = ((w.add f).1, x.apply (w.add f).2) := by
  have hne : w.fresh ≠ x.handle := Nat.ne_of_gt h
  simp [World.add, World.tell, apply, onFile, hne]

theorem withPipe_apply (h : x.Hidden w) (room : Option Nat) :
    (x.apply w).withPipe room = x.apply (w.withPipe room) := by
  have hne : x.source ≠ .pipe w.fresh := fun hx => Nat.lt_irrefl _ (h.pipe _ hx)
  simp [World.withPipe, apply, onPipe, hne]

/-- A path is opened in the same way, or refused for the same reason. -/
theorem openPath_apply (h : x.Hidden w) (access : Disk.Access) (cwd : Place) (path : Bytes) :
    (x.apply w).openPath access cwd path =
      ((w.openPath access cwd path).1, x.apply (w.openPath access cwd path).2) := by
  have hr : (x.apply w).request = (w.request.1, x.apply w.request.2) := rfl
  have hd : (x.apply w.request.2).disk.openPath access cwd path =
      (w.request.2.disk.openPath access cwd path).map fun opened =>
        (opened.1, x.onDisk opened.2) :=
    openPath_onDisk h.content access cwd path
  have ha (opened : Disk.Stream × Disk) (append : Bool) :=
    add_apply (w := { w.request.2 with disk := opened.2 }) h.handle
      { source := .disk opened.1, append }
  simp only [World.openPath, hr, hd]
  split
  · rfl
  · cases w.request.2.disk.openPath access cwd path with
    | error e => rfl
    | ok opened => exact congrArg (fun p => (Except.ok p.1, p.2)) (ha opened _)

/-- A pipe is made in the same way, or refused. -/
theorem openPipe_apply (h : x.Hidden w) (room : Option Nat) :
    (x.apply w).openPipe room = ((w.openPipe room).1, x.apply (w.openPipe room).2) := by
  have hr : (x.apply w).request = (w.request.1, x.apply w.request.2) := rfl
  have hp := withPipe_apply (w := w.request.2) ⟨h.handle, h.content, h.pipe⟩ room
  let f : OpenFile := { source := .pipe w.fresh }
  have hread := add_apply (w := w.request.2.withPipe room) (Nat.lt_succ_of_lt h.handle) f
  have hwrite := add_apply (w := ((w.request.2.withPipe room).add f).2)
    (Nat.lt_succ_of_lt (Nat.lt_succ_of_lt h.handle)) f
  have hboth : (((x.apply w.request.2).withPipe room).add f).2.add f =
      ((((w.request.2.withPipe room).add f).2.add f).1,
        x.apply (((w.request.2.withPipe room).add f).2.add f).2) := by
    rw [hp, hread, hwrite]
  simp only [World.openPipe, hr]
  split
  · rfl
  · exact congrArg (fun p => (some (World.PipeEnds.mk w.fresh (w.fresh + 1) p.1), p.2)) hboth

theorem Hidden.misses_disk (h : x.Hidden w) {access : Disk.Access} {cwd : Place} {path : Bytes}
    {stream : Disk.Stream} {d : Disk} (hd : w.disk.openPath access cwd path = .ok (stream, d)) :
    x.Misses (.disk stream) := by
  cases stream with
  | content id =>
    intro hx
    exact ((h.content id hx).openPath hd).2 rfl
  | _ => trivial

/-- What was opened by a path is a new file and keeps the bytes out of reach. -/
theorem Unseen.openPath {w' : World} (h : x.Unseen w held) {access : Disk.Access} {cwd : Place}
    {path : Bytes} {k : Nat} (ho : w.openPath access cwd path = (.ok k, w')) :
    x.Unseen w' (k :: held) := by
  have hopened := World.opened_openPath ho
  have hd := w.keepsNameless_openPath access cwd path
  rw [ho] at hd
  have ht : ∀ entry ∈ w'.table, entry ∈ w.table ∨ x.Misses entry.2.1 := by
    unfold World.openPath at ho
    simp only at ho
    split at ho
    · cases ho
    · split at ho
      · cases ho
      · next hopen =>
        cases ho
        intro entry hm
        rcases List.mem_cons.mp hm with rfl | hm
        · exact .inr (h.misses_disk hopen)
        · exact .inl hm
  have hnew := h.clear_new h.numbered ht (hopened.numbers k (List.mem_singleton_self k)).1
  have hold := h.of_table hd (h.numbered.opened hopened) hopened.fresh ht
  exact { hold with held := List.forall_mem_cons.mpr ⟨hnew, hold.held⟩ }

/-- So are the ends of a pipe. -/
theorem Unseen.openPipe {w' : World} (h : x.Unseen w held) {room : Option Nat}
    {ends : World.PipeEnds} (ho : w.openPipe room = (some ends, w')) :
    x.Unseen w' (ends.read :: ends.write :: held) ∧ x.source ≠ .pipe ends.number := by
  obtain ⟨rfl, hfresh, -⟩ := World.openPipe_fresh ho
  have hn := h.numbered.openPipe ho
  have hsource : x.source ≠ .pipe w.fresh := fun hx => Nat.lt_irrefl _ (h.pipe _ hx)
  have hd := w.keepsNameless_openPipe room
  rw [ho] at hd
  have ht : ∀ entry ∈ w'.table, entry ∈ w.table ∨ x.Misses entry.2.1 := by
    unfold World.openPipe at ho
    simp only at ho
    split at ho
    · cases ho
    · cases ho
      intro entry hm
      rcases List.mem_cons.mp hm with rfl | hm
      · exact .inr hsource
      · rcases List.mem_cons.mp hm with rfl | hm
        · exact .inr hsource
        · exact .inl hm
  have hold := h.of_table hd hn (by rw [hfresh]; omega) ht
  have hread := h.clear_new h.numbered ht (k := w.fresh + 1) (by simp)
  have hwrite := h.clear_new h.numbered ht (k := w.fresh + 2) (by simp)
  refine ⟨{ hold with held := ?_ }, hsource⟩
  exact List.forall_mem_cons.mpr ⟨hread, List.forall_mem_cons.mpr ⟨hwrite, hold.held⟩⟩

end Swap

end CommandShell
