import CommandShell.Proofs.StreamView

/-! How an open file is read that is shared. Everyone who reads it takes bytes from where the one before
stopped, and whoever works on other files leaves that place alone, whatever becomes of the contents. -/
namespace CommandShell

/-- Where reading stands: an open file with the place reached in it, and the pipe it leads to. -/
structure Position where
  file : OpenFile
  pipe : Option Pipe

namespace Position

/-- Where reading stands after so many more bytes. -/
def advance (n : Nat) (p : Position) : Position :=
  match p.file.source with
  | .disk (.content _) => { p with file := { p.file with offset := p.file.offset + n } }
  | .disk _ => p
  | .pipe _ => { p with pipe := p.pipe.map fun q => { q with waiting := q.waiting.drop n } }

/-- What is left to read, if the contents of a file are `data`. -/
def unread (data : Bytes) (p : Position) : Bytes :=
  match p.file.source with
  | .disk (.content _) => data.drop p.file.offset
  | .disk _ => []
  | .pipe _ => (p.pipe.getD {}).waiting

variable (p : Position) (n m : Nat)

theorem advance_zero : p.advance 0 = p := by
  obtain ⟨⟨(id | _ | _) | number, offset, append⟩, pipe⟩ := p
  · rfl
  · rfl
  · rfl
  · cases pipe <;> rfl

theorem advance_advance : (p.advance n).advance m = p.advance (n + m) := by
  obtain ⟨⟨(id | _ | _) | number, offset, append⟩, pipe⟩ := p
  · simp [advance, Nat.add_assoc]
  · rfl
  · rfl
  · cases pipe <;> simp [advance]

theorem unread_advance (data : Bytes) : (p.advance n).unread data = (p.unread data).drop n := by
  obtain ⟨⟨(id | _ | _) | number, offset, append⟩, pipe⟩ := p
  · simp [advance, unread]
  · simp [advance, unread]
  · simp [advance, unread]
  · cases pipe <;> simp [advance, unread]

end Position

namespace World
variable (w : World) (h k n : Nat)

def position? : Option Position :=
  (w.file? h).map fun f =>
    { file := f, pipe := match f.source with
        | .pipe number => w.pipe? number
        | .disk _ => none }

/-- The contents of the file behind an open file, if there is one. -/
def data : Bytes :=
  match w.source? h with
  | some (.disk (.content id)) => w.disk.content id
  | _ => []

theorem available_eq_unread :
    w.available h = ((w.position? h).map (Position.unread (w.data h))).getD [] := by
  unfold available position? data source?
  rcases w.file? h with _ | ⟨(id | _ | _) | number, offset, append⟩ <;> rfl

theorem position?_congr {w w' : World} {h : Nat} (hf : w'.file? h = w.file? h)
    (hp : ∀ number, w.source? h = some (.pipe number) → w'.pipe? number = w.pipe? number) :
    w'.position? h = w.position? h := by
  rw [position?, position?, hf]
  cases hfile : w.file? h with
  | none => rfl
  | some f =>
    obtain ⟨stream | number, offset, append⟩ := f
    · rfl
    · have hs : w.source? h = some (.pipe number) := by rw [source?, hfile, Option.map_some]
      simp only [Option.map_some, hp number hs]

theorem position?_consume :
    (w.consume h n).position? h = (w.position? h).map (Position.advance n) := by
  cases hf : w.file? h with
  | none => simp only [consume, position?, hf, Option.map_none]
  | some f =>
    obtain ⟨(id | _ | _) | number, offset, append⟩ := f
    · simp only [consume, position?, hf, file?_seek, Option.map_some]
      rfl
    · simp only [consume, position?, hf, Option.map_some]
      rfl
    · simp only [consume, position?, hf, Option.map_some]
      rfl
    · simp only [consume, hf]
      cases hp : w.pipe? number with
      | none => simp [position?, hf, hp, Position.advance]
      | some p =>
        have hfile (p : Pipe) : (w.setPipe number p).file? h = w.file? h := rfl
        simp [position?, hfile, hf, pipe?_setPipe, hp, Position.advance]

/-- Another open file that was there before, and that leads to another pipe. -/
structure Elsewhere (w : World) (h k : Nat) : Prop where
  old : k < w.fresh
  ne : k ≠ h
  source : ∀ number, w.source? h = some (.pipe number) → w.source? k ≠ some (.pipe number)

variable {w h k}

theorem position?_seek_of_ne (hne : k ≠ h) (offset : Nat) :
    (w.seek k offset).position? h = w.position? h := by
  refine position?_congr ?_ fun _ _ => rfl
  rw [file?_seek]
  cases w.file? h <;> simp [hne.symm]

theorem Elsewhere.position?_setPipe (he : w.Elsewhere h k) {f : OpenFile} (hf : w.file? k = some f)
    {number : Nat} (hs : f.source = .pipe number) (p : Pipe) :
    (w.setPipe number p).position? h = w.position? h := by
  refine position?_congr rfl fun other hother => ?_
  have hne : other ≠ number := by
    rintro rfl
    exact he.source _ hother (by rw [source?, hf, Option.map_some, hs])
  simp [pipe?_setPipe, hne]

theorem Elsewhere.position?_consume (he : w.Elsewhere h k) :
    (w.consume k n).position? h = w.position? h := by
  cases hf : w.file? k with
  | none => simp only [consume, hf]
  | some f =>
    obtain ⟨(id | _ | _) | number, offset, append⟩ := f
    · simp only [consume, hf, position?_seek_of_ne he.ne]
    · simp only [consume, hf]
    · simp only [consume, hf]
    · simp only [consume, hf]
      cases w.pipe? number with
      | none => rfl
      | some p => exact he.position?_setPipe hf rfl _

theorem Elsewhere.position?_write (he : w.Elsewhere h k) (s : Bytes) :
    (w.write k s).2.position? h = w.position? h := by
  unfold write
  split
  · rfl
  · cases hf : w.file? k with
    | none => rfl
    | some f =>
      obtain ⟨(id | _ | _) | number, offset, append⟩ := f
      · exact (position?_seek_of_ne he.ne _).trans (position?_congr rfl fun _ _ => rfl)
      · rfl
      · rfl
      · dsimp only
        split
        · rfl
        · split
          · exact he.position?_setPipe hf rfl _
          · split <;> exact he.position?_setPipe hf rfl _

end World

/-! Bytes that are taken one piece after the other. -/

inductive Taker where
  | shell
  | command
  deriving DecidableEq, Repr

/-- Bytes that someone takes, and the world they are taken in. -/
structure Take where
  taker : Taker
  world : World
  bytes : Bytes

/-- From one place to another, each piece is what stands at the place where the piece before it ended.
-/
def Contiguous (h : Nat) : Option Position → List Take → Option Position → Prop
  | p, [], last => last = p
  | p, t :: rest, last =>
    t.world.position? h = p ∧ t.bytes <+: t.world.available h ∧
      Contiguous h (p.map (Position.advance t.bytes.length)) rest last

theorem Contiguous.append {h : Nat} {a b c : Option Position} {ts us : List Take}
    (ht : Contiguous h a ts b) (hu : Contiguous h b us c) : Contiguous h a (ts ++ us) c := by
  induction ts generalizing a with
  | nil =>
    obtain rfl : b = a := ht
    exact hu
  | cons t ts ih => exact ⟨ht.1, ht.2.1, ih ht.2.2⟩

/-- As long as the contents stay what they are, the pieces and what is left are what there was. -/
theorem Contiguous.unread {h : Nat} {a b : Option Position} {ts : List Take} {data : Bytes}
    (hc : Contiguous h a ts b) (hd : ∀ t ∈ ts, t.world.data h = data) :
    (a.map (Position.unread data)).getD [] =
      ts.flatMap Take.bytes ++ (b.map (Position.unread data)).getD [] := by
  induction ts generalizing a with
  | nil =>
    obtain rfl : b = a := hc
    rfl
  | cons t ts ih =>
    -- The contents are the same for every piece, so that what is behind this one is what the next
    -- one starts with.
    obtain ⟨rfl, ⟨rest, hrest⟩, hc⟩ := hc
    have hnext := ih hc fun t ht => hd t (List.mem_cons_of_mem _ ht)
    have hadvance : Position.unread data ∘ Position.advance t.bytes.length =
        List.drop t.bytes.length ∘ Position.unread data :=
      funext fun p => p.unread_advance t.bytes.length data
    have hafter : ((t.world.position? h).map (List.drop t.bytes.length ∘ Position.unread data)).getD
        [] = rest := by
      rw [World.available_eq_unread, hd t List.mem_cons_self] at hrest
      cases hp : t.world.position? h with
      | none =>
        rw [hp] at hrest
        simp only [Option.map_none, Option.getD_none, List.append_eq_nil_iff] at hrest
        simp [hrest.2]
      | some p =>
        rw [hp] at hrest
        simp only [Option.map_some, Option.getD_some] at hrest
        simp [← hrest]
    rw [Option.map_map, hadvance, hafter] at hnext
    rw [List.flatMap_cons, List.append_assoc, ← hnext, hrest, World.available_eq_unread,
      hd t List.mem_cons_self]

/-- From one world to another these bytes are taken from an open file and no others, and the files that
were open stay open. -/
structure World.Taking (h : Nat) (w : World) (ts : List Take) (w' : World) : Prop where
  contiguous : Contiguous h (w.position? h) ts (w'.position? h)
  sources : ∀ k < w.fresh, w'.source? k = w.source? k
  fresh : w.fresh ≤ w'.fresh

namespace World.Taking
variable {h : Nat} {a b c : World} {ts us : List Take}

theorem of_quiet (hq : a.Quiet b) (hp : b.position? h = a.position? h) : Taking h a [] b where
  contiguous := hp
  sources k _ := source?_of_table hq.table k
  fresh := Nat.le_of_eq hq.fresh.symm

theorem refl (w : World) : Taking h w [] w := of_quiet (.refl w) rfl

theorem trans (ht : Taking h a ts b) (hu : Taking h b us c) : Taking h a (ts ++ us) c where
  contiguous := ht.contiguous.append hu.contiguous
  sources k hk := (hu.sources k (Nat.lt_of_lt_of_le hk ht.fresh)).trans (ht.sources k hk)
  fresh := Nat.le_trans ht.fresh hu.fresh

theorem then_nothing (ht : Taking h a ts b) (hu : Taking h b [] c) : Taking h a ts c := by
  simpa using ht.trans hu

/-- As long as the contents stay what they are, what was there is what was taken and what is left. -/
theorem available_eq (ht : Taking h a ts b) (hts : ∀ t ∈ ts, t.world.data h = a.data h)
    (hb : b.data h = a.data h) : a.available h = ts.flatMap Take.bytes ++ b.available h := by
  rw [available_eq_unread, available_eq_unread, hb]
  exact ht.contiguous.unread hts

end World.Taking

namespace World
variable {h k n : Nat} {w w' : World} {ts : List Take}

theorem Elsewhere.later (he : w.Elsewhere h k) (hold : h < w.fresh) (ht : w.Taking h ts w') :
    w'.Elsewhere h k where
  old := Nat.lt_of_lt_of_le he.old ht.fresh
  ne := he.ne
  source number hs := by
    rw [ht.sources h hold] at hs
    rw [ht.sources k he.old]
    exact he.source number hs

/-- Streams of which only the input may be this open file, or lead to the same pipe. -/
structure Shares (w : World) (h : Nat) (streams : Streams) : Prop where
  old : h < w.fresh
  pipe : ∀ number, w.source? h = some (.pipe number) → number < w.fresh
  input : streams.input = h ∨ w.Elsewhere h streams.input
  output : w.Elsewhere h streams.output
  error : w.Elsewhere h streams.error

theorem Shares.later {streams : Streams} (hs : w.Shares h streams) (ht : w.Taking h ts w') :
    w'.Shares h streams where
  old := Nat.lt_of_lt_of_le hs.old ht.fresh
  pipe number hn := by
    rw [ht.sources h hs.old] at hn
    exact Nat.lt_of_lt_of_le (hs.pipe number hn) ht.fresh
  input := hs.input.imp_right fun he => he.later hs.old ht
  output := hs.output.later hs.old ht
  error := hs.error.later hs.old ht

/-! Files and pipes that were opened in between are closed. -/

theorem Taking.close (ht : w.Taking h ts w') (hold : h < w.fresh) (hk : w.fresh ≤ k) :
    w.Taking h ts (w'.close k) where
  contiguous := by
    have hp : (w'.close k).position? h = w'.position? h :=
      position?_congr (by rw [file?_close, if_neg (by omega)]) fun _ _ => rfl
    rw [hp]
    exact ht.contiguous
  sources j hj := (source?_close_of_ne (by omega)).trans (ht.sources j hj)
  fresh := ht.fresh

theorem Taking.foldl_close {handles : List Nat} (ht : w.Taking h ts w') (hold : h < w.fresh)
    (hk : ∀ k ∈ handles, w.fresh ≤ k) : w.Taking h ts (handles.foldl World.close w') := by
  induction handles generalizing w' with
  | nil => exact ht
  | cons k handles ih =>
    obtain ⟨hk, hrest⟩ := List.forall_mem_cons.mp hk
    exact ih (ht.close hold hk) hrest

theorem Taking.unbind (ht : w.Taking h ts w') (hold : h < w.fresh)
    (hpipe : ∀ number, w.source? h = some (.pipe number) → number < n) :
    w.Taking h ts (w'.unbind n) where
  contiguous := by
    have hp : (w'.unbind n).position? h = w'.position? h := by
      refine position?_congr rfl fun number hn => ?_
      rw [ht.sources h hold] at hn
      simp [pipe?_unbind, Nat.ne_of_lt (hpipe number hn)]
    rw [hp]
    exact ht.contiguous
  sources := ht.sources
  fresh := ht.fresh

theorem Taking.dropPipe (ht : w.Taking h ts w') (hold : h < w.fresh)
    (hpipe : ∀ number, w.source? h = some (.pipe number) → number < n) :
    w.Taking h ts (w'.dropPipe n) where
  contiguous := by
    have hp : (w'.dropPipe n).position? h = w'.position? h := by
      refine position?_congr rfl fun number hn => ?_
      rw [ht.sources h hold] at hn
      rw [pipe?_dropPipe, if_neg (Nat.ne_of_lt (hpipe number hn))]
    rw [hp]
    exact ht.contiguous
  sources := ht.sources
  fresh := ht.fresh

/-! Reading and writing. -/

/-- What someone who reads from `k` takes from `h`. -/
def taken (h k : Nat) (w : World) (bytes : Bytes) : List Take :=
  if k = h then [⟨.command, w, bytes⟩] else []

theorem taking_consume (hk : k = h ∨ w.Elsewhere h k) (hn : n ≤ (w.available k).length) :
    w.Taking h (taken h k w ((w.available k).take n)) (w.consume k n) := by
  have hq := w.quiet_consume k n
  refine ⟨?_, fun j _ => source?_of_table hq.table j, Nat.le_of_eq hq.fresh.symm⟩
  by_cases he : k = h
  · subst he
    rw [taken, if_pos rfl, position?_consume]
    have hlength : ((w.available k).take n).length = n := by
      rw [List.length_take, Nat.min_eq_left hn]
    refine ⟨rfl, List.take_prefix .., ?_⟩
    rw [hlength]
    rfl
  · rw [taken, if_neg he]
    exact (hk.resolve_left he).position?_consume n

theorem taking_write (hk : w.Elsewhere h k) (s : Bytes) : w.Taking h [] (w.write k s).2 :=
  .of_quiet (w.quiet_write k s) (hk.position?_write s)

theorem taking_disk (disk : Disk) : w.Taking h [] { w with disk } :=
  .of_quiet (w.quiet_disk disk) rfl

theorem taking_change (f : Disk → Except PathError Disk) : w.Taking h [] (Program.change w f).2 := by
  unfold Program.change
  split
  · exact taking_disk _
  · exact .refl w

/-- How much a copy takes. -/
def copied (w : World) (source target : Nat) : Nat :=
  let available := (w.available source).length
  match w.room target with
  | none => available
  | some room =>
    if available ≤ room then available
    else min available ((room / Program.blockSize + 1) * Program.blockSize)

theorem copied_le (source target : Nat) : w.copied source target ≤ (w.available source).length := by
  unfold copied
  dsimp only
  split
  · exact Nat.le_refl _
  · split
    · exact Nat.le_refl _
    · exact Nat.min_le_left ..

theorem copy_eq (source target : Nat) :
    w.copy source target =
      (w.consume source (w.copied source target)).write target (w.available source) := by
  unfold copy copied
  cases w.room target with
  | none => rfl
  | some room =>
    dsimp only
    split <;> rfl

end World

/-- What a program takes from an open file, which is its standard input if it takes anything. -/
def Program.takes (h : Nat) (streams : Streams) (dir : Place) : Program → World → List Take
  | exit _, _ | die, _ => []
  | read amount next, w =>
    let (s, after) := w.read streams.input amount
    World.taken h streams.input w s ++ (next s).takes h streams dir after
  | copy next, w =>
    let count := w.copied streams.input streams.output
    World.taken h streams.input w ((w.available streams.input).take count) ++
      match w.copy streams.input streams.output with
      | (true, w) => next.takes h streams dir w
      | (false, _) => []
  | print text next, w =>
    match w.write streams.output text with
    | (true, w) => next.takes h streams dir w
    | (false, _) => []
  | complain text next, w =>
    match w.write streams.error text with
    | (true, w) => next.takes h streams dir w
    | (false, _) => []
  | readFile path next, w => (next (w.disk.readFile dir path).toOption).takes h streams dir w
  | remove path next, w =>
    let (done, w) := change w fun d => d.remove dir path
    (next done).takes h streams dir w
  | makeDirectory path next, w =>
    let (done, w) := change w fun d => d.makeDirectory 0o755 dir path
    (next done).takes h streams dir w

theorem Program.taking_run {h : Nat} {streams : Streams} (dir : Place) (p : Program) {w : World}
    (hs : w.Shares h streams) : w.Taking h (p.takes h streams dir w) (p.run streams dir w).2 := by
  induction p generalizing w with
  | exit | die => exact .refl w
  | read amount next ih =>
    have hread := World.taking_consume hs.input
      (n := min (amount (w.available streams.input)) (w.available streams.input).length)
      (Nat.min_le_right ..)
    exact hread.trans (ih _ (hs.later hread))
  | copy next ih =>
    have hread := World.taking_consume hs.input (w.copied_le streams.input streams.output)
    have hcopy := hread.then_nothing
      (World.taking_write (hs.later hread).output (w.available streams.input))
    rw [← World.copy_eq] at hcopy
    rw [takes, run]
    rcases hc : w.copy streams.input streams.output with ⟨_ | _, after⟩
    · rw [hc] at hcopy
      simpa using hcopy
    · rw [hc] at hcopy
      exact hcopy.trans (ih (hs.later hcopy))
  | print text next ih =>
    have hwrite := World.taking_write hs.output text
    rw [takes, run]
    rcases hc : w.write streams.output text with ⟨_ | _, after⟩
    · rw [hc] at hwrite
      exact hwrite
    · rw [hc] at hwrite
      exact hwrite.trans (ih (hs.later hwrite))
  | complain text next ih =>
    have hwrite := World.taking_write hs.error text
    rw [takes, run]
    rcases hc : w.write streams.error text with ⟨_ | _, after⟩
    · rw [hc] at hwrite
      exact hwrite
    · rw [hc] at hwrite
      exact hwrite.trans (ih (hs.later hwrite))
  | readFile path next ih => exact ih _ hs
  | remove path next ih =>
    have hchange := World.taking_change (h := h) (w := w) fun d => d.remove dir path
    exact hchange.trans (ih _ (hs.later hchange))
  | makeDirectory path next ih =>
    have hchange := World.taking_change (h := h) (w := w) fun d => d.makeDirectory 0o755 dir path
    exact hchange.trans (ih _ (hs.later hchange))

end CommandShell
