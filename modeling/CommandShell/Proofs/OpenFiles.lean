import CommandShell.Proofs.ExecutionStep
import Mathlib.Data.List.Count
import Mathlib.Data.List.Nodup

/-! The files that a run opens are closed by the run, each once, and those that were open stay open.
A step lemma says of each thing that is done to a world what it adds to the history and leaves of the
table of open files. -/
namespace CommandShell

/-- The open file that events go to. -/
def Recorder.file? : Recorder → Option Nat
  | file handle _ => some handle
  | _ => none

namespace World

/-- The open files by their numbers with what they lead to, apart from the place reached in each. -/
def table (w : World) : List (Nat × Source × Bool) :=
  w.files.map fun entry => (entry.1, entry.2.source, entry.2.append)

def pipeNumbers (w : World) : List Nat := w.pipes.map Prod.fst

/-- Every number in use is older than the next one. -/
structure Numbered (w : World) : Prop where
  files : ∀ entry ∈ w.table, entry.1 < w.fresh
  sources : ∀ entry ∈ w.table, ∀ n, entry.2.1 = .pipe n → n < w.fresh
  pipes : ∀ n ∈ w.pipeNumbers, n < w.fresh

/-- Nothing was opened, closed or run in between. -/
structure Quiet (w w' : World) : Prop where
  history : w'.history = w.history
  table : w'.table = w.table
  pipes : w'.pipeNumbers = w.pipeNumbers
  fresh : w'.fresh = w.fresh
  clock : w'.clock = w.clock

namespace Quiet

theorem refl (w : World) : w.Quiet w := ⟨rfl, rfl, rfl, rfl, rfl⟩

theorem trans {a b c : World} (h : a.Quiet b) (h' : b.Quiet c) : a.Quiet c where
  history := h'.history.trans h.history
  table := h'.table.trans h.table
  pipes := h'.pipes.trans h.pipes
  fresh := h'.fresh.trans h.fresh
  clock := h'.clock.trans h.clock

end Quiet

section
variable (w : World)

theorem quiet_seek (h offset : Nat) : w.Quiet (w.seek h offset) := by
  refine ⟨rfl, ?_, rfl, rfl, rfl⟩
  simp only [table, seek, List.map_map]
  refine List.map_congr_left fun entry _ => ?_
  simp only [Function.comp]
  split <;> rfl

theorem quiet_setPipe (n : Nat) (p : Pipe) : w.Quiet (w.setPipe n p) := by
  refine ⟨rfl, rfl, ?_, rfl, rfl⟩
  simp only [pipeNumbers, setPipe, List.map_map]
  refine List.map_congr_left fun entry _ => ?_
  simp only [Function.comp]
  split <;> simp_all

theorem quiet_unbind (n : Nat) : w.Quiet (w.unbind n) := by
  refine ⟨rfl, rfl, ?_, rfl, rfl⟩
  simp only [pipeNumbers, unbind, List.map_map]
  refine List.map_congr_left fun entry _ => ?_
  simp only [Function.comp]
  split <;> simp_all

theorem quiet_disk (disk : Disk) : w.Quiet { w with disk } := ⟨rfl, rfl, rfl, rfl, rfl⟩

theorem quiet_consume (h n : Nat) : w.Quiet (w.consume h n) := by
  unfold consume
  split
  · split
    · exact w.quiet_seek ..
    · exact .refl w
    · split
      · exact w.quiet_setPipe ..
      · exact .refl w
  · exact .refl w

theorem quiet_write (h : Nat) (s : Bytes) : w.Quiet (w.write h s).2 := by
  unfold write
  split
  · exact .refl w
  · split
    · split
      · exact (w.quiet_disk _).trans (quiet_seek ..)
      · exact .refl w
      · split
        · exact .refl w
        · split
          · exact w.quiet_setPipe ..
          · split
            · exact w.quiet_setPipe ..
            · exact w.quiet_setPipe ..
    · exact .refl w

theorem quiet_print (h : Nat) (s : Bytes) : w.Quiet (w.print h s) := w.quiet_write h s

theorem quiet_copy (source target : Nat) : w.Quiet (w.copy source target).2 := by
  have taken (n : Nat) (s : Bytes) : w.Quiet ((w.consume source n).write target s).2 :=
    (w.quiet_consume source n).trans (quiet_write ..)
  unfold copy
  dsimp only
  split
  · exact taken ..
  · split <;> exact taken ..

theorem quiet_change (f : Disk → Except PathError Disk) : w.Quiet (Program.change w f).2 := by
  unfold Program.change
  split
  · exact w.quiet_disk _
  · exact .refl w

theorem quiet_record (recorder : Recorder) (subject : Bytes) (e : Event) :
    w.Quiet (recorder.record subject e w) := by
  cases recorder with
  | silent => exact .refl w
  | broken => exact ⟨rfl, rfl, rfl, rfl, rfl⟩
  | memory => exact ⟨rfl, rfl, rfl, rfl, rfl⟩
  | file => exact w.quiet_print ..

end

/-- A program opens and closes no file of the shell. -/
theorem quiet_run (streams : Streams) (dir : Place) (p : Program) (w : World) :
    w.Quiet (p.run streams dir w).2 := by
  induction p generalizing w with
  | exit | die => exact .refl w
  | read amount next ih => exact (w.quiet_consume ..).trans (ih ..)
  | copy next ih =>
    have hc := w.quiet_copy streams.input streams.output
    rw [Program.run]
    split <;> simp_all only
    · exact hc.trans (ih _)
  | print text next ih =>
    have hw := w.quiet_write streams.output text
    rw [Program.run]
    split <;> simp_all only
    · exact hw.trans (ih _)
  | complain text next ih =>
    have hw := w.quiet_write streams.error text
    rw [Program.run]
    split <;> simp_all only
    · exact hw.trans (ih _)
  | readFile path next ih => exact ih ..
  | remove path next ih =>
    exact (w.quiet_change fun d => d.remove dir path).trans (ih ..)
  | makeDirectory path next ih =>
    exact (w.quiet_change fun d => d.makeDirectory 0o755 dir path).trans (ih ..)

section
variable (handles : List Nat) (n : Nat)

@[simp] theorem count_opened_map_opened :
    (handles.map Happening.opened).count (.opened n) = handles.count n :=
  List.count_map_of_injective _ _ (fun _ _ h => Happening.opened.inj h) _

@[simp] theorem count_closed_map_closed :
    (handles.map Happening.closed).count (.closed n) = handles.count n :=
  List.count_map_of_injective _ _ (fun _ _ h => Happening.closed.inj h) _

@[simp] theorem count_opened_map_closed :
    (handles.map Happening.closed).count (.opened n) = 0 := by
  simp [List.count_eq_zero]

@[simp] theorem count_closed_map_opened :
    (handles.map Happening.opened).count (.closed n) = 0 := by
  simp [List.count_eq_zero]

end

/-- What happened in between left the open files as they were: it opened new ones only, and closed
each of them once. -/
structure Settled (w w' : World) (trail : List Happening) : Prop where
  history : w'.history = w.history ++ trail
  table : w'.table = w.table
  pipes : w'.pipeNumbers = w.pipeNumbers
  fresh : w.fresh ≤ w'.fresh
  clock : w'.clock = w.clock
  opened : ∀ h, .opened h ∈ trail → w.fresh ≤ h ∧ h < w'.fresh
  once : ∀ h, trail.count (.opened h) ≤ 1
  closed : ∀ h, trail.count (.closed h) = trail.count (.opened h)

theorem Quiet.settled {w w' : World} (h : w.Quiet w') : w.Settled w' [] where
  history := by simp [h.history]
  table := h.table
  pipes := h.pipes
  fresh := Nat.le_of_eq h.fresh.symm
  clock := h.clock
  opened := by simp
  once := by simp
  closed := by simp

namespace Settled
variable {a b c : World} {s t : List Happening}

theorem count_opened_eq_zero (h : a.Settled b s) {n : Nat} (hn : n < a.fresh ∨ b.fresh ≤ n) :
    s.count (.opened n) = 0 := by
  rw [List.count_eq_zero]
  intro hm
  have := h.opened n hm
  omega

theorem trans (h : a.Settled b s) (h' : b.Settled c t) : a.Settled c (s ++ t) where
  history := by rw [h'.history, h.history, List.append_assoc]
  table := h'.table.trans h.table
  pipes := h'.pipes.trans h.pipes
  fresh := Nat.le_trans h.fresh h'.fresh
  clock := h'.clock.trans h.clock
  opened n hm := by
    have := h.fresh
    have := h'.fresh
    rcases List.mem_append.mp hm with hm | hm
    · have := h.opened n hm
      omega
    · have := h'.opened n hm
      omega
  once n := by
    rw [List.count_append]
    by_cases hn : n < b.fresh
    · rw [h'.count_opened_eq_zero (.inl hn)]
      exact h.once n
    · rw [h.count_opened_eq_zero (.inr (by omega)), Nat.zero_add]
      exact h'.once n
  closed n := by rw [List.count_append, List.count_append, h.closed, h'.closed]

theorem quiet (h : a.Settled b s) (h' : b.Quiet c) : a.Settled c s := by
  simpa using h.trans h'.settled

/-- A command that begins and ends opens no file. -/
theorem tell (h : a.Settled b s) {e : Happening} (he : e matches .began _ | .ended _) :
    a.Settled (b.tell e) (s ++ [e]) := by
  refine h.trans ⟨rfl, rfl, rfl, Nat.le_refl _, rfl, ?_, ?_, ?_⟩ <;> intro n <;> cases e <;> simp_all

end Settled

namespace Numbered
variable {w w' : World}

theorem of_subset (h : w.Numbered) (ht : w'.table ⊆ w.table)
    (hp : w'.pipeNumbers ⊆ w.pipeNumbers) (hf : w.fresh ≤ w'.fresh) : w'.Numbered where
  files entry hm := Nat.lt_of_lt_of_le (h.files entry (ht hm)) hf
  sources entry hm n he := Nat.lt_of_lt_of_le (h.sources entry (ht hm) n he) hf
  pipes n hm := Nat.lt_of_lt_of_le (h.pipes n (hp hm)) hf

theorem settled {trail : List Happening} (h : w.Numbered) (hs : w.Settled w' trail) :
    w'.Numbered :=
  h.of_subset (by simp [hs.table]) (by simp [hs.pipes]) hs.fresh

end Numbered

/-- Files were opened one after the other, and nothing else happened. -/
structure Opened (w w' : World) (handles : List Nat) : Prop where
  history : w'.history = w.history ++ handles.map .opened
  table : ∃ front, w'.table = front ++ w.table ∧
    ∀ entry ∈ front, entry.1 ∈ handles ∧ ∀ n, entry.2.1 = .pipe n → n < w'.fresh
  pipes : w'.pipeNumbers = w.pipeNumbers
  fresh : w.fresh ≤ w'.fresh
  clock : w'.clock = w.clock
  numbers : ∀ h ∈ handles, w.fresh ≤ h ∧ h < w'.fresh
  nodup : handles.Nodup

theorem Quiet.opened {w w' : World} (h : w.Quiet w') : w.Opened w' [] where
  history := by simp [h.history]
  table := ⟨[], by simp [h.table]⟩
  pipes := h.pipes
  fresh := Nat.le_of_eq h.fresh.symm
  clock := h.clock
  numbers := by simp
  nodup := by simp

theorem Opened.trans {a b c : World} {s t : List Nat} (h : a.Opened b s) (h' : b.Opened c t) :
    a.Opened c (s ++ t) where
  history := by rw [h'.history, h.history, List.map_append, List.append_assoc]
  table := by
    obtain ⟨f, he, hf⟩ := h.table
    obtain ⟨f', he', hf'⟩ := h'.table
    refine ⟨f' ++ f, by rw [he', he, List.append_assoc], ?_⟩
    intro entry hm
    rcases List.mem_append.mp hm with hm | hm
    · exact ⟨List.mem_append_right _ (hf' entry hm).1, (hf' entry hm).2⟩
    · refine ⟨List.mem_append_left _ (hf entry hm).1, fun n he => ?_⟩
      exact Nat.lt_of_lt_of_le ((hf entry hm).2 n he) h'.fresh
  pipes := h'.pipes.trans h.pipes
  fresh := Nat.le_trans h.fresh h'.fresh
  clock := h'.clock.trans h.clock
  numbers n hm := by
    have := h.fresh
    have := h'.fresh
    rcases List.mem_append.mp hm with hm | hm
    · have := h.numbers n hm
      omega
    · have := h'.numbers n hm
      omega
  nodup := by
    refine List.nodup_append.mpr ⟨h.nodup, h'.nodup, ?_⟩
    intro n hn m hm
    have := h.numbers n hn
    have := h'.numbers m hm
    omega

theorem quiet_request (w : World) : w.Quiet w.request.2 := ⟨rfl, rfl, rfl, rfl, rfl⟩

theorem opened_add (w : World) {f : OpenFile} (hf : ∀ n, f.source = .pipe n → n < w.fresh) :
    w.Opened (w.add f).2 [w.fresh] where
  history := rfl
  table := by
    refine ⟨[(w.fresh, f.source, f.append)], rfl, ?_⟩
    intro entry hm
    obtain rfl := List.mem_singleton.mp hm
    exact ⟨List.mem_singleton_self _, fun n he => Nat.lt_succ_of_lt (hf n he)⟩
  pipes := rfl
  fresh := Nat.le_succ _
  clock := rfl
  numbers n hm := by
    obtain rfl := List.mem_singleton.mp hm
    exact ⟨Nat.le_refl _, Nat.lt_succ_self _⟩
  nodup := by simp

theorem opened_openPath {w w' : World} {access : Disk.Access} {cwd : Place} {path : Bytes}
    {h : Nat} (ho : w.openPath access cwd path = (.ok h, w')) : w.Opened w' [h] := by
  unfold openPath at ho
  simp only at ho
  split at ho
  · cases ho
  · split at ho
    · cases ho
    · cases ho
      exact (w.quiet_request.trans (quiet_disk ..)).opened.trans (opened_add _ (by simp))

theorem quiet_openPath {w w' : World} {access : Disk.Access} {cwd : Place} {path : Bytes}
    {e : PathError} (ho : w.openPath access cwd path = (.error e, w')) : w.Quiet w' := by
  unfold openPath at ho
  simp only at ho
  split at ho
  · cases ho
    exact w.quiet_request
  · split at ho <;> cases ho
    exact w.quiet_request

theorem table_close (w : World) (h : Nat) : (w.close h).table = w.table.filter (·.1 != h) := by
  simp [table, close, tell, List.filter_map, Function.comp_def]

/-- What closing files leaves. -/
theorem foldl_close (handles : List Nat) (w : World) :
    let w' := handles.foldl close w
    w'.history = w.history ++ handles.map .closed ∧
      w'.table = w.table.filter (fun entry => decide (entry.1 ∉ handles)) ∧
      w'.pipeNumbers = w.pipeNumbers ∧ w'.fresh = w.fresh ∧ w'.clock = w.clock := by
  induction handles generalizing w with
  | nil => exact ⟨by simp, (List.filter_eq_self.mpr (by simp)).symm, rfl, rfl, rfl⟩
  | cons h handles ih =>
    obtain ⟨hh, ht, hp, hf, hc⟩ := ih (w.close h)
    refine ⟨?_, ?_, hp, hf, hc⟩
    · rw [List.foldl_cons, hh]
      simp [close, tell]
    · rw [List.foldl_cons, ht]
      rw [table_close, List.filter_filter]
      refine List.filter_congr fun entry _ => ?_
      by_cases he : entry.1 = h <;> simp [he]

/-- What happens between opening and closing files is enclosed by that. -/
theorem Opened.enclose {a b c : World} {handles : List Nat} {trail : List Happening}
    (ho : a.Opened b handles) (ha : a.Numbered) (hs : b.Settled c trail) :
    a.Settled (handles.foldl close c)
      (handles.map .opened ++ trail ++ handles.map .closed) := by
  obtain ⟨hh, ht, hp, hf, hc⟩ := foldl_close handles c
  have inside (n : Nat) (hn : n ∈ handles) : trail.count (.opened n) = 0 :=
    hs.count_opened_eq_zero (.inl (ho.numbers n hn).2)
  refine ⟨?_, ?_, ?_, ?_, ?_, ?_, ?_, ?_⟩
  · rw [hh, hs.history, ho.history]
    simp
  · obtain ⟨front, hfront, hnew⟩ := ho.table
    rw [ht, hs.table, hfront, List.filter_append, List.filter_eq_nil_iff.mpr, List.nil_append,
      List.filter_eq_self.mpr]
    · intro entry hm
      have hold := ha.files entry hm
      simp only [decide_eq_true_eq]
      intro hin
      have := ho.numbers _ hin
      omega
    · intro entry hm
      simpa using (hnew entry hm).1
  · rw [hp, hs.pipes, ho.pipes]
  · rw [hf]
    exact Nat.le_trans ho.fresh hs.fresh
  · rw [hc, hs.clock, ho.clock]
  · intro n hm
    have := ho.fresh
    have := hs.fresh
    rw [hf]
    simp only [List.mem_append, List.mem_map, Happening.opened.injEq, exists_eq_right,
      reduceCtorEq, and_false, exists_false, or_false] at hm
    rcases hm with hm | hm
    · have := ho.numbers n hm
      omega
    · have := hs.opened n hm
      omega
  · intro n
    simp only [List.count_append, count_opened_map_opened, count_opened_map_closed]
    by_cases hn : n ∈ handles
    · have := List.nodup_iff_count_le_one.mp ho.nodup n
      rw [inside n hn]
      omega
    · have := hs.once n
      rw [List.count_eq_zero_of_not_mem hn]
      omega
  · intro n
    simp only [List.count_append, count_opened_map_opened, count_opened_map_closed,
      count_closed_map_opened, count_closed_map_closed, hs.closed]
    omega

theorem Numbered.opened {w w' : World} {handles : List Nat} (h : w.Numbered)
    (ho : w.Opened w' handles) : w'.Numbered := by
  obtain ⟨front, ht, hfront⟩ := ho.table
  have hf := ho.fresh
  refine ⟨?_, ?_, ?_⟩
  · intro entry hm
    rw [ht] at hm
    rcases List.mem_append.mp hm with hm | hm
    · exact (ho.numbers _ (hfront entry hm).1).2
    · exact Nat.lt_of_lt_of_le (h.files entry hm) hf
  · intro entry hm n he
    rw [ht] at hm
    rcases List.mem_append.mp hm with hm | hm
    · exact (hfront entry hm).2 n he
    · exact Nat.lt_of_lt_of_le (h.sources entry hm n he) hf
  · intro n hm
    rw [ho.pipes] at hm
    exact Nat.lt_of_lt_of_le (h.pipes n hm) hf

theorem Numbered.close {w : World} (h : w.Numbered) (n : Nat) : (w.close n).Numbered :=
  h.of_subset (by simp [table_close]) (List.Subset.refl _) (Nat.le_refl _)

theorem Numbered.quiet {w w' : World} (h : w.Numbered) (hq : w.Quiet w') : w'.Numbered :=
  h.settled hq.settled

/-- The world with a pipe that has no ends yet. -/
def withPipe (w : World) (room : Option Nat) : World :=
  { w with pipes := (w.fresh, { room }) :: w.pipes, fresh := w.fresh + 1 }

theorem Numbered.withPipe {w : World} (h : w.Numbered) (room : Option Nat) :
    (w.withPipe room).Numbered := by
  refine ⟨?_, ?_, ?_⟩
  · intro entry hm
    exact Nat.lt_succ_of_lt (h.files entry hm)
  · intro entry hm n he
    exact Nat.lt_succ_of_lt (h.sources entry hm n he)
  · intro n hm
    rcases List.mem_cons.mp hm with rfl | hm
    · exact Nat.lt_succ_self _
    · exact Nat.lt_succ_of_lt (h.pipes n hm)

/-- Once its ends are closed, a pipe that is forgotten leaves no trace. -/
theorem Settled.dropPipe {w w' : World} {room : Option Nat} {trail : List Happening}
    (hw : w.Numbered) (h : (w.withPipe room).Settled w' trail) :
    w.Settled (w'.dropPipe w.fresh) trail where
  history := h.history
  table := h.table
  pipes := by
    have hp : w'.pipeNumbers = w.fresh :: w.pipeNumbers := h.pipes
    have hfilter : (w'.dropPipe w.fresh).pipeNumbers = w'.pipeNumbers.filter (· != w.fresh) := by
      simp [pipeNumbers, World.dropPipe, List.filter_map, Function.comp_def]
    rw [hfilter, hp, List.filter_cons_of_neg (by simp), List.filter_eq_self.mpr]
    intro n hm
    have := hw.pipes n hm
    simp only [bne_iff_ne, ne_eq]
    omega
  fresh := Nat.le_of_succ_le h.fresh
  clock := h.clock
  opened n hm := by
    have := h.opened n hm
    exact ⟨Nat.le_of_succ_le this.1, this.2⟩
  once := h.once
  closed := h.closed

/-- A pipe takes three numbers: its own and those of its two ends. -/
theorem openPipe_some {w w' : World} {room : Option Nat} {ends : PipeEnds}
    (h : w.openPipe room = (some ends, w')) :
    ∃ granted read, w.Quiet granted ∧ ends = ⟨w.fresh, w.fresh + 1, w.fresh + 2⟩ ∧
      (granted.withPipe room).Opened read [ends.read] ∧ read.Opened w' [ends.write] := by
  unfold openPipe at h
  simp only at h
  split at h
  · cases h
  · cases h
    refine ⟨w.request.2, _, w.quiet_request, rfl, opened_add (w.request.2.withPipe room) ?_,
      opened_add _ ?_⟩
    · rintro n ⟨⟩
      exact Nat.lt_succ_self _
    · rintro n ⟨⟩
      exact Nat.lt_succ_of_lt (Nat.lt_succ_self _)

theorem Numbered.openPipe {w w' : World} {room : Option Nat} {ends : PipeEnds} (h : w.Numbered)
    (ho : w.openPipe room = (some ends, w')) : w'.Numbered := by
  obtain ⟨granted, read, hq, -, hread, hwrite⟩ := openPipe_some ho
  exact (((h.quiet hq).withPipe room).opened hread).opened hwrite

theorem openPipe_none {w w' : World} {room : Option Nat} (h : w.openPipe room = (none, w')) :
    w.Quiet w' := by
  unfold openPipe at h
  simp only at h
  split at h
  · cases h
    exact w.quiet_request
  · cases h

/-- The write end of a pipe encloses what the left side does, and the read end encloses both. -/
theorem Settled.pipe {w opened left right : World} {room : Option Nat} {ends : PipeEnds}
    {a b : List Happening} (hw : w.Numbered) (ho : w.openPipe room = (some ends, opened))
    (hl : opened.Settled left a)
    (hr : ((left.close ends.write).unbind ends.number).Settled right b) :
    w.Settled ((right.close ends.read).dropPipe ends.number)
      ([.opened ends.read] ++ ([.opened ends.write] ++ a ++ [.closed ends.write] ++ b) ++
        [.closed ends.read]) := by
  obtain ⟨granted, read, hq, he, hread, hwrite⟩ := openPipe_some ho
  have hg := (hw.quiet hq).withPipe room
  have hleft := (hwrite.enclose (hg.opened hread) hl).quiet (quiet_unbind _ ends.number)
  have hboth := (hread.enclose hg (hleft.trans hr)).dropPipe (hw.quiet hq)
  have hn : granted.fresh = ends.number := by rw [hq.fresh, he]
  rw [hn] at hboth
  exact hq.settled.trans hboth

/-- What is open in a world was open before. -/
structure Within (w w' : World) : Prop where
  table : w'.table ⊆ w.table
  pipes : w'.pipeNumbers ⊆ w.pipeNumbers
  fresh : w.fresh ≤ w'.fresh
  clock : w'.clock = w.clock

theorem Settled.within {w w' : World} {trail : List Happening} (h : w.Settled w' trail) :
    w.Within w' :=
  ⟨by simp [h.table], by simp [h.pipes], h.fresh, h.clock⟩

theorem within_close (w : World) (h : Nat) : w.Within (w.close h) :=
  ⟨by simp [table_close], List.Subset.refl _, Nat.le_refl _, rfl⟩

theorem Within.trans {a b c : World} (h : a.Within b) (h' : b.Within c) : a.Within c :=
  ⟨List.Subset.trans h'.table h.table, List.Subset.trans h'.pipes h.pipes,
    Nat.le_trans h.fresh h'.fresh, h'.clock.trans h.clock⟩

theorem Numbered.within {w w' : World} (h : w.Numbered) (hw : w.Within w') : w'.Numbered :=
  h.of_subset hw.table hw.pipes hw.fresh

/-- What was open in a world has numbers from before that world's next one. -/
theorem Within.file?_lt {o w : World} (hw : o.Within w) (ho : o.Numbered) {h : Nat} {f : OpenFile}
    (hf : w.file? h = some f) : h < o.fresh ∧ ∀ n, f.source = .pipe n → n < o.fresh := by
  obtain ⟨⟨h', f'⟩, hfind, rfl⟩ := Option.map_eq_some_iff.mp hf
  obtain rfl : h' = h := by simpa using List.find?_some hfind
  have hm : (h', f'.source, f'.append) ∈ o.table :=
    hw.table (List.mem_map_of_mem (List.mem_of_find?_eq_some hfind))
  exact ⟨ho.files _ hm, ho.sources _ hm⟩

theorem openPipe_fresh {w w' : World} {room : Option Nat} {ends : PipeEnds}
    (h : w.openPipe room = (some ends, w')) :
    ends = ⟨w.fresh, w.fresh + 1, w.fresh + 2⟩ ∧ w'.fresh = w.fresh + 3 ∧ w'.clock = w.clock := by
  unfold openPipe at h
  simp only at h
  split at h
  · cases h
  · cases h
    exact ⟨rfl, rfl, rfl⟩

end World

/-! What is found under a number. -/

section Lookup
variable {α : Type} (l : List (Nat × α)) (k : Nat)

theorem find?_map_key {f : Nat × α → Nat × α} {g : α → α} (hkey : ∀ entry, (f entry).1 = entry.1)
    (hval : ∀ a, (f (k, a)).2 = g a) :
    ((l.map f).find? (·.1 == k)).map Prod.snd = ((l.find? (·.1 == k)).map Prod.snd).map g := by
  rw [List.find?_map, Option.map_map, Option.map_map]
  have hp : (fun entry : Nat × α => entry.1 == k) ∘ f = fun entry => entry.1 == k := by
    funext entry
    simp [hkey]
  rw [hp]
  cases hf : l.find? (·.1 == k) with
  | none => rfl
  | some entry =>
    obtain rfl : entry.1 = k := by simpa using List.find?_some hf
    exact congrArg some (hval entry.2)

theorem find?_filter_key (h : Nat) :
    ((l.filter (·.1 != h)).find? (·.1 == k)).map Prod.snd =
      if k = h then none else (l.find? (·.1 == k)).map Prod.snd := by
  rw [List.find?_filter]
  by_cases hk : k = h
  · rw [if_pos hk, Option.map_eq_none_iff, List.find?_eq_none]
    simp_all
  · rw [if_neg hk]
    congr 2
    funext entry
    by_cases he : entry.1 = k <;> simp [he, hk]

end Lookup

namespace World
variable (w : World) (h k n : Nat)

theorem file?_seek (offset : Nat) :
    (w.seek h offset).file? k =
      (w.file? k).map fun f => if k = h then { f with offset } else f := by
  refine find?_map_key w.files k (fun entry => ?_) (fun f => ?_)
  · split <;> rfl
  · by_cases hk : k = h <;> simp [hk]

theorem file?_close : (w.close h).file? k = if k = h then none else w.file? k :=
  find?_filter_key w.files k h

theorem file?_add (f : OpenFile) :
    (w.add f).2.file? k = if k = w.fresh then some f else w.file? k := by
  by_cases hk : k = w.fresh
  · simp [file?, add, tell, hk]
  · have hne : (w.fresh == k) = false := by simpa using fun he : w.fresh = k => hk he.symm
    simp [file?, add, tell, hk, hne]

theorem pipe?_setPipe (p : Pipe) :
    (w.setPipe n p).pipe? k = (w.pipe? k).map fun q => if k = n then p else q := by
  refine find?_map_key w.pipes k (fun entry => ?_) (fun q => ?_)
  · split <;> simp_all
  · by_cases hk : k = n <;> simp [hk]

theorem pipe?_unbind :
    (w.unbind n).pipe? k = (w.pipe? k).map fun q => if k = n then { q with room := none } else q := by
  refine find?_map_key w.pipes k (fun entry => ?_) (fun q => ?_)
  · split <;> simp_all
  · by_cases hk : k = n <;> simp [hk]

theorem pipe?_withPipe (room : Option Nat) :
    (w.withPipe room).pipe? k = if k = w.fresh then some { room } else w.pipe? k := by
  by_cases hk : k = w.fresh
  · simp [pipe?, withPipe, hk]
  · have hne : (w.fresh == k) = false := by simpa using fun he : w.fresh = k => hk he.symm
    simp [pipe?, withPipe, hk, hne]

theorem pipe?_dropPipe : (w.dropPipe n).pipe? k = if k = n then none else w.pipe? k :=
  find?_filter_key w.pipes k n

end World

end CommandShell
