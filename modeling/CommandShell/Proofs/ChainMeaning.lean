import CommandShell.Proofs.SettledRun
import CommandShell.Proofs.FilterCommand

/-! What a chain of commands means does not depend on how it is bracketed, so that a reader of command
lines may let every chain lean to the left. -/
namespace CommandShell

/-! A pipeline can be run in a new sandbox. -/

namespace Sandbox
open Executor
variable (d : Disk) (input : Bytes) (here : Surroundings) {fits : Disk → Prop}

theorem source?_input : (start d input).source? 0 = some (.disk (.content d.contents.length)) := rfl

theorem source?_output :
    (start d input).source? 1 = some (.disk (.content (d.contents.length + 1))) := by
  change some (Source.disk (.content (d.contents ++ [input]).length)) = _
  rw [List.length_append]
  rfl

theorem reached_start (h : fits (start d input).disk) :
    (settingAt streams fits ⟨here, start d input⟩).Reached (start d input) where
  numbered := numbered_start d input
  granted := by rintro _ ⟨⟩
  fresh := (by decide : 1 < 3)
  target := rfl
  fits := h

theorem wired_start :
    (settingAt streams fits ⟨here, start d input⟩).Wired (start d input) 0 1 := by
  refine ⟨⟨(by decide : 0 < 3), .inl rfl⟩, ⟨(by decide : 1 < 3), .inl rfl⟩, by decide, ?_⟩
  intro source hi ho
  rw [source?_input] at hi
  rw [source?_output] at ho
  cases hi
  simp at ho

/-- What is written to the output of a sandbox gets no name. -/
theorem nameless_output
    (h : ∀ entry ∈ d.items, ∀ mode id, entry.2 = .file mode id → id < d.contents.length) {id : Nat}
    (hid : (start d input).source? 1 = some (.disk (.content id))) :
    (start d input).disk.Nameless id := by
  cases (source?_output d input).symm.trans hid
  refine ⟨?_, fun entry hm mode he => ?_⟩
  · change _ < (((d.contents ++ [input]) ++ [[]]) ++ [[]]).length
    simp
  · have hold := h entry hm mode _ he
    omega

end Sandbox

namespace Executor

/-- Chains of short circuits do the same in all that a run can change. So do sequences, of each other
and of short circuits, if every command succeeds. Pipelines of commands that are functions of their
input agree in their status, which is the low byte of the last command's, in their output, and in
leaving the surroundings alone. The tree that leans to the left is one way of bracketing. -/
theorem bracketing_is_irrelevant (ex : Executor) (ts : List Tree) :
    (∀ kind, kind = .and ∨ kind = .or → ∀ t t', Bracketing kind ts t → Bracketing kind ts t' →
      ∀ (streams : Streams) (s : Running),
        (ex.execute t streams).run s = (ex.execute t' streams).run s) ∧
    (∀ (streams : Streams) (s : Running), ex.AllSucceed streams ts s →
      ∀ t t', Bracketing .sequence ts t → Bracketing .sequence ts t' ∨ Bracketing .and ts t' →
        (ex.execute t streams).run s = (ex.execute t' streams).run s) ∧
    (2 ≤ ts.length →
      ∀ (streams : Streams) (fits : Disk → Prop) (s : Running) (fs : List StreamFunction)
        (g : StreamFunction),
        List.Forall₂ ((settingAt streams fits s).Filters ex) (fs ++ [g]) ts →
        (settingAt streams fits s).Reached s.world →
        (settingAt streams fits s).Wired s.world streams.input streams.output →
        ∀ t t', Bracketing .pipe ts t → Bracketing .pipe ts t' →
          let x := StreamFunction.through fs (s.world.available streams.input)
          let last := g.effect (s.world.room streams.output) x
          let run := (ex.execute t streams).run s
          let run' := (ex.execute t' streams).run s
          (run.1 = Status.exitCode last.status ∧ run'.1 = run.1) ∧
          (run.2.world.view streams.output =
              (s.world.write streams.output last.written).2.view streams.output ∧
            run'.2.world.view streams.output = run.2.world.view streams.output) ∧
          run.2.here = s.here ∧ run'.2.here = s.here) ∧
    ∀ kind first rest, ts = first :: rest →
      Bracketing kind ts (rest.foldl (Tree.binary kind) first) := by
  refine ⟨?_, ?_, ?_, ?_⟩
  · intro kind hk t t' h h' streams s
    rcases hk with rfl | rfl
    · rw [execute_and_eq h h']
    · rw [execute_or_eq h h']
  · intro streams s hs t t' h h'
    rw [run_eq_of_allSucceed (.inl rfl) h hs]
    rcases h' with h' | h'
    · exact (run_eq_of_allSucceed (.inl rfl) h' hs).symm
    · exact (run_eq_of_allSucceed (.inr rfl) h' hs).symm
  · intro hlen streams fits s fs g hstages hw hio t t' h h'
    obtain ⟨hstatus, hhere, hview⟩ := run_pipeline h hlen hstages hw hio
    obtain ⟨hstatus', hhere', hview'⟩ := run_pipeline h' hlen hstages hw hio
    exact ⟨⟨hstatus, hstatus'.trans hstatus.symm⟩, ⟨hview, hview'.trans hview.symm⟩, hhere, hhere'⟩
  · rintro kind first rest rfl
    exact Bracketing.leftLeaning kind first rest

/-- A program that appends its first argument to what it reads, three times in a row, and three changes
of directory. -/
theorem bracketing_is_irrelevant_appending :
    let ex : Executor :=
      { name := [], programs := fun inv =>
          .transform (· ++ inv.argv.tail.headD []) fun _ => UInt8.ofNat inv.argv.length }
    let disk := ({} : Disk).putFile ["p"] 0o755 Launch.imageMark
    let s : Running := ⟨⟨"/", .empty⟩, Sandbox.start disk "x"⟩
    let run (t : Tree) := (ex.execute t Sandbox.streams).run s
    let left (kind : Kind) (a b c : Tree) := Tree.binary kind (Tree.binary kind a b) c
    let right (kind : Kind) (a b c : Tree) := Tree.binary kind a (Tree.binary kind b c)
    let a : Tree := .plain ["/p", "a"]
    let b : Tree := .plain ["/p", "b"]
    let c : Tree := .plain ["/p", "c", "-"]
    let cd : Tree := .plain ["cd", "/"]
    let written : Option View := some ⟨.disk (.content 2), false, 4, some { waiting := "xabc" }⟩
    run (left .or a b c) = run (right .or a b c) ∧
      run (left .sequence cd cd cd) = run (right .and cd cd cd) ∧
      ((run (left .pipe a b c)).1 = 3 ∧ (run (right .pipe a b c)).1 = 3) ∧
      ((run (left .pipe a b c)).2.world.view 1 = written ∧
        (run (right .pipe a b c)).2.world.view 1 = written) ∧
      Bracketing .pipe [a, b, c] (left .pipe a b c) := by
  intro ex disk s run left right a b c cd written
  subst run
  beta_reduce
  have hleft (kind : Kind) (a b c : Tree) : Bracketing kind [a, b, c] (left kind a b c) :=
    .join [] .none (.join [] .none (.leaf a) (.leaf b)) (.leaf c)
  have hright (kind : Kind) (a b c : Tree) : Bracketing kind [a, b, c] (right kind a b c) :=
    .join [] .none (.leaf a) (.join [] .none (.leaf b) (.leaf c))
  have hcd : ex.AllSucceed Sandbox.streams [cd, cd, cd] s := by
    subst ex s disk cd
    cbv
  -- the program stays what it is, since the output has no name
  let S := settingAt Sandbox.streams (s.world.disk.Since (s.world.source? 1)) s
  have hnameless (id : Nat) (hid : S.target = some (.disk (.content id))) :
      s.world.disk.Nameless id := by
    have hitems : ∀ entry ∈ disk.items, entry.2 = .file 0o755 0 ∨ entry.2 = .directory 0o755 := by
      decide
    refine Sandbox.nameless_output disk "x" (fun entry hm mode id he => ?_) hid
    rcases hitems entry hm with hfile | hdir
    · cases hfile.symm.trans he
      decide
    · cases hdir.symm.trans he
  let f (args : List Bytes) : StreamFunction :=
    .ofTransform (· ++ args.headD []) fun _ => UInt8.ofNat (args.length + 1)
  have hstage (args : List Bytes)
      (h : Launch.prepare s.world.disk S.here.dir "/p" ("/p" :: args) S.here.env.listing =
        .ok ⟨"/p" :: args, [], []⟩) : S.Filters ex (f args) (.plain ("/p" :: args)) :=
    filters_plain rfl rfl hnameless ⟨by decide, "/p", by cbv, h⟩ rfl rfl .absent .absent
  have hstages : List.Forall₂ (S.Filters ex) ([f ["a"], f ["b"]] ++ [f ["c", "-"]]) [a, b, c] :=
    .cons (hstage ["a"] (by cbv)) (.cons (hstage ["b"] (by cbv))
      (.cons (hstage ["c", "-"] (by cbv)) .nil))
  have hlast : (f ["c", "-"]).effect (s.world.room 1)
      (StreamFunction.through [f ["a"], f ["b"]] (s.world.available 0)) = ⟨3, "xabc", 3⟩ := by
    subst ex s disk f
    cbv
  have hwritten : (s.world.write 1 "xabc").2.view 1 = written := by
    subst s disk written
    cbv
  obtain ⟨hor, -, hpipe, hlean⟩ := ex.bracketing_is_irrelevant [a, b, c]
  obtain ⟨-, hsequence, -, -⟩ := ex.bracketing_is_irrelevant [cd, cd, cd]
  obtain ⟨⟨hstatus, hsame⟩, ⟨hview, hviews⟩, -, -⟩ := hpipe (by simp) Sandbox.streams _ s _ _
    hstages (Sandbox.reached_start disk "x" _ .same) (Sandbox.wired_start disk "x" _) _ _
    (hleft .pipe a b c) (hright .pipe a b c)
  have hi : Sandbox.streams.input = 0 := rfl
  have ho : Sandbox.streams.output = 1 := rfl
  rw [hi, ho, hlast] at hstatus hview
  rw [ho] at hviews
  have hexit : Status.exitCode 3 = 3 := rfl
  have hthree := hstatus.trans hexit
  have hleaning := hview.trans hwritten
  exact ⟨hor .or (.inr rfl) _ _ (hleft .or a b c) (hright .or a b c) _ _,
    hsequence _ _ hcd _ _ (hleft .sequence cd cd cd) (.inr (hright .and cd cd cd)),
    ⟨hthree, hsame.trans hthree⟩, ⟨hleaning, hviews.trans hleaning⟩, hlean .pipe a [b, c] rfl⟩

/-- Where the second pipe is refused it matters what it would have joined. -/
theorem bracketing_is_irrelevant_refused :
    let ex : Executor :=
      { name := [], programs := fun inv => .transform (· ++ inv.argv.tail.headD []) fun _ => 0 }
    let disk := ({} : Disk).putFile ["p"] 0o755 Launch.imageMark
    let s : Running := ⟨⟨"/", .empty⟩, { Sandbox.start disk "x" with outages := [false, true] }⟩
    let status (t : Tree) := ((ex.execute t Sandbox.streams).run s).1
    let a : Tree := .plain ["/p", "a"]
    let b : Tree := .plain ["/p", "b"]
    let c : Tree := .plain ["/p", "c"]
    let left := Tree.binary .pipe (Tree.binary .pipe a b) c
    let right := Tree.binary .pipe a (Tree.binary .pipe b c)
    (Bracketing .pipe [a, b, c] left ∧ Bracketing .pipe [a, b, c] right) ∧
      status left = 0 ∧ status right = 255 := by
  intro ex disk s status a b c left right
  refine ⟨⟨.join [] .none (.join [] .none (.leaf a) (.leaf b)) (.leaf c),
    .join [] .none (.leaf a) (.join [] .none (.leaf b) (.leaf c))⟩, ?_, ?_⟩
  · subst status ex s disk left
    cbv
  · subst status ex s disk right
    cbv

end Executor

end CommandShell
