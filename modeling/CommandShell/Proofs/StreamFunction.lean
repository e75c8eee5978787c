import CommandShell.Execution

/-! Commands as functions of their input stream, and what becomes of two that are joined by a pipe.
Joining is associative: how much of its input the first command takes, what the last one writes and
the status that is reported do not depend on how a pipeline is bracketed. -/
namespace CommandShell

/-- What a command does to its streams: how much of the input it takes, what it writes, and the
status it reports. -/
@[ext] structure Effect where
  taken : Nat
  written : Bytes
  status : Status

/-- A command that is a function of its input stream. It may be allowed to write a number of bytes
only; then it writes as many of those that it would write, and is stopped. -/
@[ext] structure StreamFunction where
  effect : Option Nat → Bytes → Effect
  taken_le (room : Option Nat) (x : Bytes) : (effect room x).taken ≤ x.length
  written_take (n : Nat) (x : Bytes) :
    (effect (some n) x).written = (effect none x).written.take n
  /-- Room that is enough makes no difference. -/
  enough {n : Nat} {x : Bytes} (h : (effect none x).written.length ≤ n) :
    effect (some n) x = effect none x
  /-- If it leaves bytes unread, then what comes after one of them makes no difference. -/
  causal {room : Option Nat} {x y : Bytes} {k : Nat} (h : x.take k = y.take k)
    (hk : (effect room x).taken < k) (hx : k ≤ x.length) (hy : k ≤ y.length) :
    effect room y = effect room x

namespace StreamFunction
variable (f g h : StreamFunction) (room : Option Nat) (x : Bytes)

/-- All that the command writes if nobody stops it. -/
def output : Bytes := (f.effect none x).written

theorem length_written_le {n : Nat} : (f.effect (some n) x).written.length ≤ n := by
  rw [f.written_take, List.length_take]
  exact Nat.min_le_left ..

/-- How much the first of two commands may write: the pipe's capacity more than the second one
takes, if that would leave more. -/
def roomBefore : Option Nat :=
  let y := f.output x
  let taken := (g.effect room y).taken
  if y.length - taken ≤ Executor.pipeCapacity then none else some (taken + Executor.pipeCapacity)

variable {f g room x}

theorem lt_length_of_roomBefore_eq_some {n : Nat} (h : f.roomBefore g room x = some n) :
    n = (g.effect room (f.output x)).taken + Executor.pipeCapacity ∧ n < (f.output x).length := by
  unfold roomBefore at h
  dsimp only at h
  split at h
  · cases h
  · cases h
    refine ⟨rfl, ?_⟩
    omega

/-- Where the first command is stopped makes no difference to the second one. -/
theorem effect_written (f g : StreamFunction) (room : Option Nat) (x : Bytes) :
    g.effect room (f.effect (f.roomBefore g room x) x).written = g.effect room (f.output x) := by
  cases hroom : f.roomBefore g room x with
  | none => rfl
  | some n =>
    obtain ⟨hn, hlt⟩ := lt_length_of_roomBefore_eq_some hroom
    have hcap : 0 < Executor.pipeCapacity := by decide
    rw [f.written_take]
    refine g.causal (k := n) ?_ (by omega) (Nat.le_of_lt hlt) ?_
    · rw [List.take_take, Nat.min_self]
      rfl
    · rw [List.length_take]
      exact Nat.le_min.mpr ⟨Nat.le_refl _, Nat.le_of_lt hlt⟩

/-- What comes after bytes that the first command leaves unread makes no difference to either. -/
theorem effect_of_unread {y : Bytes} {k : Nat} (h : x.take k = y.take k)
    (hk : (f.effect (f.roomBefore g room x) x).taken < k) (hx : k ≤ x.length) (hy : k ≤ y.length) :
    f.effect (f.roomBefore g room y) y = f.effect (f.roomBefore g room x) x ∧
      g.effect room (f.output y) = g.effect room (f.output x) := by
  have hf := f.causal h hk hx hy
  cases hroom : f.roomBefore g room x with
  | none =>
    rw [hroom] at hf
    have hout : f.output y = f.output x := congrArg Effect.written hf
    have hsame : f.roomBefore g room y = none := by rw [← hroom, roomBefore, roomBefore, hout]
    rw [hsame, hout]
    exact ⟨hf, rfl⟩
  | some n =>
    rw [hroom] at hf
    obtain ⟨hn, hlt⟩ := lt_length_of_roomBefore_eq_some hroom
    have hcap : 0 < Executor.pipeCapacity := by decide
    have hout : (f.output x).take n = (f.output y).take n := by
      have hw := congrArg Effect.written hf
      rw [f.written_take, f.written_take] at hw
      exact hw.symm
    have hle : n ≤ (f.output y).length := by
      have hlen := congrArg List.length hout
      rw [List.length_take, List.length_take] at hlen
      omega
    have hg : g.effect room (f.output y) = g.effect room (f.output x) :=
      g.causal hout (by omega) (Nat.le_of_lt hlt) hle
    refine ⟨?_, hg⟩
    -- the room is the same, unless it is just enough for the other input
    by_cases hmore : n < (f.output y).length
    · have hsame : f.roomBefore g room y = some n := by
        simp only [roomBefore, hg]
        rw [if_neg (by omega), hn]
      rw [hsame, hf]
    · have hnone : f.roomBefore g room y = none := by
        simp only [roomBefore, hg]
        rw [if_pos (by omega)]
      rw [hnone, ← f.enough (Nat.le_of_not_lt hmore), hf]

variable (f g) in
/-- Two commands joined by a pipe. The status is what a parent process sees. -/
def comp : StreamFunction where
  effect room x :=
    let reader := g.effect room (f.output x)
    { taken := (f.effect (f.roomBefore g room x) x).taken
      written := reader.written
      status := Status.exitCode reader.status }
  taken_le room x := f.taken_le _ x
  written_take n x := g.written_take n (f.output x)
  enough := by
    intro n x h
    have hg := g.enough h
    simp only [roomBefore, hg]
  causal := by
    intro room x y k h hk hx hy
    obtain ⟨hf, hg⟩ := effect_of_unread h hk hx hy
    simp only [hf, hg]

theorem exitCode_exitCode (s : Status) : Status.exitCode (Status.exitCode s) = Status.exitCode s :=
  Int.emod_emod_of_dvd s (Int.dvd_refl 256)

/-- Bracketing makes no difference, since a reader takes as much, and leaves as much room, wherever
the brackets stand. -/
instance : Std.Associative comp where
  assoc f g h := by
    refine StreamFunction.ext (funext fun room => funext fun x => Effect.ext rfl rfl ?_)
    exact (exitCode_exitCode _).symm

/-- What becomes of a text that goes through one command after the other. -/
def through (fs : List StreamFunction) (x : Bytes) : Bytes := fs.foldl (fun y f => f.output y) x

theorem output_foldl_comp (f : StreamFunction) (fs : List StreamFunction) (x : Bytes) :
    (fs.foldl comp f).output x = through (f :: fs) x := by
  induction fs generalizing f with
  | nil => rfl
  | cons g fs ih => exact ih (f.comp g)

end StreamFunction

end CommandShell
