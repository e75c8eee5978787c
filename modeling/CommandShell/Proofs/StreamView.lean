import CommandShell.Proofs.SettledRun

/-! What can be told of an open file by reading and writing it. The view of one file decides what is
read from it and where a text is written, and it changes only by what is done to the file itself or
to another way to the same bytes. -/
namespace CommandShell

/-- What a text that is written makes of a pipe. -/
def Pipe.put (s : Bytes) (p : Pipe) : Pipe :=
  match p.room with
  | none => { p with waiting := p.waiting ++ s }
  | some room =>
    if s.length ≤ room then { waiting := p.waiting ++ s, room := some (room - s.length) }
    else { waiting := p.waiting ++ s.take room, room := some 0 }

theorem Pipe.put_nil (p : Pipe) : p.put [] = p := by
  obtain ⟨waiting, _ | room⟩ := p <;> simp [put]

/-- A new pipe with enough room, once its bound is lifted. -/
theorem Pipe.put_unbound {s : Bytes} {room : Option Nat} (h : ∀ n, room = some n → s.length ≤ n) :
    { put s { room } with room := none } = ({ waiting := s } : Pipe) := by
  cases room with
  | none => simp [put]
  | some n => simp [put, h n rfl]

/-- A pipe has no place of its own, and a device holds nothing. -/
structure View where
  source : Source
  append : Bool
  place : Nat
  held : Option Pipe

namespace View

def available (v : View) : Bytes := (v.held.getD {}).waiting.drop v.place

def room (v : View) : Option Nat := (v.held.getD {}).room

def consume (n : Nat) (v : View) : View :=
  match v.source with
  | .disk (.content _) => { v with place := v.place + n }
  | .disk _ => v
  | .pipe _ => { v with held := v.held.map fun p => { p with waiting := p.waiting.drop n } }

def write (s : Bytes) (v : View) : View :=
  match v.source with
  | .disk (.content _) =>
    if s.isEmpty then v
    else
      let start := if v.append then (v.held.getD {}).waiting.length else v.place
      { v with
        place := start + s.length
        held := v.held.map fun p => { p with waiting := World.overwrite p.waiting start s } }
  | .disk _ => v
  | .pipe _ => { v with held := v.held.map (·.put s) }

theorem write_nil (v : View) : v.write [] = v := by
  obtain ⟨(id | _ | _) | n, append, place, held⟩ := v
  · rfl
  · rfl
  · rfl
  · cases held <;> simp [write, Pipe.put_nil]

end View

namespace World
variable (w : World) (k n : Nat)

/-- What stands behind an open file: the bytes of a file, or a pipe. -/
def behind (w : World) : Source → Option Pipe
  | .disk (.content id) => w.disk.contents[id]?.map fun data => { waiting := data }
  | .disk _ => none
  | .pipe n => w.pipe? n

def view : Option View :=
  (w.file? k).map fun f =>
    { source := f.source, append := f.append, held := w.behind f.source
      place := if f.source matches .pipe _ then 0 else f.offset }

theorem waiting_behind (id : Nat) :
    ((w.behind (.disk (.content id))).getD {}).waiting = w.disk.content id := by
  rw [behind, Disk.content, List.getD_eq_getElem?_getD]
  cases w.disk.contents[id]? <;> rfl

theorem available_eq_view : w.available k = ((w.view k).map View.available).getD [] := by
  unfold available view
  rcases w.file? k with _ | ⟨(id | _ | _) | n, offset, append⟩
  · rfl
  · exact congrArg (List.drop offset) (w.waiting_behind id).symm
  all_goals simp [View.available, behind]

theorem room_eq_view : w.room k = (w.view k).bind View.room := by
  unfold room view
  rcases w.file? k with _ | ⟨(id | _ | _) | n, offset, append⟩
  · rfl
  · cases h : w.disk.contents[id]? <;> simp [View.room, behind, h]
  all_goals simp [View.room, behind]

/-! Reading and writing change the view in a way that depends on nothing else. -/

theorem behind_seek (offset : Nat) : (w.seek k offset).behind = w.behind := by
  funext source
  rcases source with (id | _ | _) | n <;> rfl

theorem behind_setContent (id : Nat) (data : Bytes) :
    behind { w with disk := w.disk.setContent id data } (.disk (.content id)) =
      (w.behind (.disk (.content id))).map fun p => { p with waiting := data } := by
  simp only [behind, Disk.setContent]
  rw [List.getElem?_set_self']
  cases w.disk.contents[id]? <;> rfl

theorem behind_setPipe (p : Pipe) :
    (w.setPipe n p).behind (.pipe n) = (w.behind (.pipe n)).map fun _ => p := by
  simp [behind, pipe?_setPipe]

theorem view_consume : (w.consume k n).view k = (w.view k).map (View.consume n) := by
  cases hf : w.file? k with
  | none => simp only [consume, view, hf, Option.map_none]
  | some f =>
    obtain ⟨(id | _ | _) | m, offset, append⟩ := f
    · simp only [consume, view, hf, file?_seek, Option.map_some]
      rfl
    · simp only [consume, view, hf, Option.map_some]
      rfl
    · simp only [consume, view, hf, Option.map_some]
      rfl
    · simp only [consume, hf]
      cases hp : w.pipe? m with
      | none => simp [view, hf, View.consume, behind, hp]
      | some p =>
        have hfile (p : Pipe) : (w.setPipe m p).file? k = w.file? k := rfl
        simp only [view, hfile, hf, Option.map_some, View.consume, behind_setPipe]
        simp [behind, hp]

theorem view_write (s : Bytes) : (w.write k s).2.view k = (w.view k).map (View.write s) := by
  by_cases hs : s = []
  · have hid : View.write [] = id := funext View.write_nil
    rw [hs, hid, Option.map_id]
    rfl
  have hs : s.isEmpty = false := by simpa using hs
  cases hf : w.file? k with
  | none => simp only [write, hs, view, hf, Option.map_none, Bool.false_eq_true, if_false]
  | some f =>
    obtain ⟨(id | _ | _) | m, offset, append⟩ := f
    · simp only [write, hs, hf, Bool.false_eq_true, if_false]
      have hfile (disk : Disk) : file? { w with disk } k = w.file? k := rfl
      simp only [view, file?_seek, hfile, hf, behind_seek, behind_setContent, Option.map_some, if_true,
        View.write, hs, Bool.false_eq_true, if_false, waiting_behind]
      have hw := w.waiting_behind id
      cases hb : w.behind (.disk (.content id)) with
      | none => rfl
      | some p =>
        rw [hb] at hw
        rw [← hw]
        rfl
    · simp only [write, hs, view, hf, Option.map_some, Bool.false_eq_true, if_false]
      rfl
    · simp only [write, hs, view, hf, Option.map_some, Bool.false_eq_true, if_false]
      rfl
    · simp only [write, hs, hf, Bool.false_eq_true, if_false]
      have hfile (p : Pipe) : (w.setPipe m p).file? k = w.file? k := rfl
      have hput (p : Pipe) (hp : w.pipe? m = some p) (q : Pipe) (hq : q = p.put s) :
          (w.setPipe m q).view k = (w.view k).map (View.write s) := by
        simp only [view, hfile, hf, Option.map_some, View.write, behind_setPipe, hq]
        simp [behind, hp]
      cases hp : w.pipe? m with
      | none => simp [view, hf, View.write, behind, hp]
      | some p =>
        dsimp only
        split
        · next hroom => exact hput p hp _ (by rw [Pipe.put, hroom])
        · next room hroom =>
          split
          · next hle => exact hput p hp _ (by rw [Pipe.put, hroom]; simp [hle])
          · next hle => exact hput p hp _ (by rw [Pipe.put, hroom]; simp [hle])

/-! Nothing else changes it, but for other ways to the same bytes. -/

/-- What an open file leads to. -/
def source? : Option Source := (w.file? k).map OpenFile.source

/-- Open files that differ and have no bytes in common. -/
structure Apart (j k : Nat) : Prop where
  ne : j ≠ k
  source : ∀ source, w.source? j = some source → w.source? k = some source →
    source = .disk .null ∨ source = .disk .directory

variable {w k}

theorem view_congr {w' : World} {j : Nat} (hf : w'.file? j = w.file? j)
    (hb : ∀ source, w.source? j = some source → w'.behind source = w.behind source) :
    w'.view j = w.view j := by
  rw [view, view, hf]
  cases h : w.file? j with
  | none => rfl
  | some f =>
    have hs : w.source? j = some f.source := by rw [source?, h, Option.map_some]
    simp only [Option.map_some, hb _ hs]

theorem view_seek_of_ne {j : Nat} (h : j ≠ k) (offset : Nat) : (w.seek k offset).view j = w.view j := by
  refine view_congr ?_ fun source _ => by rw [behind_seek]
  rw [file?_seek]
  cases w.file? j <;> simp [h]

/-- What is done to one pipe does not show at a file that does not lead to it. -/
theorem view_congr_pipe {w' : World} {j n : Nat} (hf : w'.file? j = w.file? j)
    (hd : w'.disk = w.disk) (hp : ∀ m, m ≠ n → w'.pipe? m = w.pipe? m)
    (h : w.source? j ≠ some (.pipe n)) : w'.view j = w.view j := by
  refine view_congr hf fun source hs => ?_
  rcases source with (id | _ | _) | m
  · simp only [behind, hd]
  · rfl
  · rfl
  · refine hp m ?_
    rintro rfl
    exact h hs

theorem view_setPipe_of_ne {j : Nat} (h : w.source? j ≠ some (.pipe n)) (p : Pipe) :
    (w.setPipe n p).view j = w.view j :=
  view_congr_pipe rfl rfl (fun m hm => by simp [pipe?_setPipe, hm]) h

theorem view_setContent_of_ne {j id : Nat} (h : w.source? j ≠ some (.disk (.content id)))
    (data : Bytes) : view { w with disk := w.disk.setContent id data } j = w.view j := by
  refine view_congr rfl fun source hs => ?_
  rcases source with (other | _ | _) | m
  · have hne : id ≠ other := by
      rintro rfl
      exact h hs
    simp [behind, Disk.setContent, List.getElem?_set_ne hne]
  all_goals rfl

theorem Apart.source_ne {j : Nat} (h : w.Apart j k) {f : OpenFile} (hf : w.file? k = some f)
    (hd : f.source ≠ .disk .null ∧ f.source ≠ .disk .directory) : w.source? j ≠ some f.source := by
  intro hj
  have hk : w.source? k = some f.source := by rw [source?, hf, Option.map_some]
  exact (h.source _ hj hk).elim hd.1 hd.2

theorem view_consume_of_apart {j : Nat} (h : w.Apart j k) : (w.consume k n).view j = w.view j := by
  cases hf : w.file? k with
  | none => simp only [consume, hf]
  | some f =>
    obtain ⟨(id | _ | _) | m, offset, append⟩ := f
    · simp only [consume, hf, view_seek_of_ne h.ne]
    · simp only [consume, hf]
    · simp only [consume, hf]
    · simp only [consume, hf]
      cases w.pipe? m with
      | none => rfl
      | some p => exact view_setPipe_of_ne m (h.source_ne hf (by simp)) _

theorem view_write_of_apart {j : Nat} (h : w.Apart j k) (s : Bytes) :
    (w.write k s).2.view j = w.view j := by
  unfold write
  split
  · rfl
  · cases hf : w.file? k with
    | none => rfl
    | some f =>
      obtain ⟨(id | _ | _) | m, offset, append⟩ := f
      · exact (view_seek_of_ne h.ne _).trans (view_setContent_of_ne (h.source_ne hf (by simp)) _)
      · rfl
      · rfl
      · have hset (p : Pipe) := view_setPipe_of_ne m (h.source_ne hf (by simp)) p
        dsimp only
        split
        · rfl
        · split
          · exact hset _
          · split <;> exact hset _

/-! Pipes that are made and given up. -/

theorem Numbered.source?_lt (h : w.Numbered) {source : Source} (hs : w.source? k = some source) :
    k < w.fresh ∧ ∀ m, source = .pipe m → m < w.fresh := by
  obtain ⟨f, hf, rfl⟩ := Option.map_eq_some_iff.mp hs
  exact (Quiet.refl w).settled.within.file?_lt h hf

theorem source?_of_table {w' : World} (h : w'.table = w.table) (k : Nat) :
    w'.source? k = w.source? k := by
  have hlook (w : World) :
      w.source? k = (w.table.find? (·.1 == k)).map fun entry => entry.2.1 := by
    simp [source?, file?, table, List.find?_map, Function.comp_def]
  rw [hlook, hlook, h]

/-- Only a file is changed by what is written to it. -/
theorem disk_write (w : World) (k : Nat) (s : Bytes) :
    (w.write k s).2.disk = w.disk ∨ ∃ id data, w.source? k = some (.disk (.content id)) ∧
      (w.write k s).2.disk = w.disk.setContent id data := by
  unfold write source?
  split
  · exact .inl rfl
  · rcases w.file? k with _ | ⟨(id | _ | _) | m, offset, append⟩
    · exact .inl rfl
    · exact .inr ⟨id, _, rfl, rfl⟩
    · exact .inl rfl
    · exact .inl rfl
    · refine .inl ?_
      dsimp only
      split
      · rfl
      · split
        · rfl
        · split <;> rfl

theorem disk_consume (w : World) (k n : Nat) : (w.consume k n).disk = w.disk := by
  unfold consume
  split
  · split
    · rfl
    · rfl
    · split <;> rfl
  · rfl

theorem source?_consume (w : World) (k n j : Nat) : (w.consume k n).source? j = w.source? j :=
  source?_of_table (w.quiet_consume k n).table j

theorem source?_close_of_ne {j : Nat} (h : j ≠ k) : (w.close k).source? j = w.source? j := by
  rw [source?, file?_close, if_neg h, source?]

theorem view_close_of_ne {j : Nat} (h : j ≠ k) : (w.close k).view j = w.view j := by
  refine view_congr (by rw [file?_close, if_neg h]) fun source _ => ?_
  rcases source with (id | _ | _) | n <;> rfl

theorem view_unbind_of_ne {j : Nat} (h : w.source? j ≠ some (.pipe n)) :
    (w.unbind n).view j = w.view j :=
  view_congr_pipe rfl rfl (fun m hm => by simp [pipe?_unbind, hm]) h

theorem view_dropPipe_of_ne {j : Nat} (h : w.source? j ≠ some (.pipe n)) :
    (w.dropPipe n).view j = w.view j :=
  view_congr_pipe rfl rfl (fun m hm => by simp [pipe?_dropPipe, hm]) h

/-- The system will refuse nothing. -/
def Granted (w : World) : Prop := ∀ refused ∈ w.outages, refused = false

/-- What a new pipe adds to a world. -/
structure NewPipe (w w' : World) (room : Option Nat) (ends : PipeEnds) : Prop where
  ends : ends = ⟨w.fresh, w.fresh + 1, w.fresh + 2⟩
  fresh : w'.fresh = w.fresh + 3
  disk : w'.disk = w.disk
  file? : ∀ j, w'.file? j = if j = w.fresh + 2 then some { source := .pipe w.fresh }
    else if j = w.fresh + 1 then some { source := .pipe w.fresh } else w.file? j
  pipe? : ∀ m, w'.pipe? m = if m = w.fresh then some { room } else w.pipe? m
  granted : w'.Granted

theorem Granted.openPipe (h : w.Granted) (room : Option Nat) :
    ∃ ends w', w.openPipe room = (some ends, w') ∧ w.NewPipe w' room ends := by
  have hr : w.request.1 = false := by
    cases ho : w.outages with
    | nil => simp [request, ho]
    | cons refused rest => simpa [request, ho] using h refused (by simp [ho])
  let f : OpenFile := { source := .pipe w.fresh }
  refine ⟨⟨w.fresh, w.fresh + 1, w.fresh + 2⟩,
    (((w.request.2.withPipe room).add f).2.add f).2, ?_, rfl, rfl, rfl, fun j => ?_, fun m => ?_, ?_⟩
  · unfold World.openPipe
    simp only [hr, Bool.false_eq_true, if_false]
    rfl
  · rw [file?_add, file?_add]
    rfl
  · exact pipe?_withPipe w.request.2 m room
  · exact fun refused hm => h refused (List.mem_of_mem_tail hm)

namespace NewPipe
variable {w' : World} {room : Option Nat} {ends : PipeEnds} (h : w.NewPipe w' room ends)
include h

theorem view_end {k : Nat} (hk : k = ends.read ∨ k = ends.write) :
    w'.view k = some ⟨.pipe ends.number, false, 0, some { room }⟩ := by
  obtain rfl := h.ends
  have hf : w'.file? k = some { source := .pipe w.fresh } := by
    rw [h.file?]
    rcases hk with rfl | rfl <;> simp
  simp only [view, hf, Option.map_some, behind, h.pipe?, if_true]

/-- What was open before looks the same. -/
theorem view_old (hn : w.Numbered) {k : Nat} (hk : k < w.fresh) : w'.view k = w.view k := by
  refine view_congr (by rw [h.file?, if_neg (by omega), if_neg (by omega)]) fun source hs => ?_
  rcases source with stream | m
  · cases stream <;> simp [behind, h.disk]
  · have hm := (hn.source?_lt hs).2 m rfl
    simp [behind, h.pipe?, Nat.ne_of_lt hm]

end NewPipe

end World

end CommandShell
