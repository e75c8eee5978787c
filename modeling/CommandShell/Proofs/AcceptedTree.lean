import CommandShell.Proofs.CanonicalTree
import CommandShell.Proofs.ReadingStep

/-! The shape of the trees that lines give. Each part of the reading state holds trees of one rank
of the grammar, every lexeme keeps it so, and what is left at the end of a line is a list. -/
namespace CommandShell.Line
open CommandShell.Tree (Fits NodeShape)

def Base.Sound : Base → Prop
  | .words _ => True
  | .group inner => Fits .list inner

def Stage.Sound : Stage → Prop
  | .idle => True
  | .reading base _ _ => base.Sound

/-- Every tree held by a level has the rank of its place. -/
structure Level.Sound (lv : Level) : Prop where
  done : lv.done ≠ .absent → Fits .list lv.done
  chain : ∀ kind l, lv.chain = some (kind, l) → (kind = .and ∨ kind = .or) ∧ Fits .chain l
  stages : ∀ l, lv.stages = some l → Fits .pipeline l
  stage : lv.stage.Sound

structure State.Sound (st : State) : Prop where
  level : st.level.Sound
  outer : ∀ lv ∈ st.outer, lv.Sound

theorem Level.sound_empty : ({} : Level).Sound where
  done h := absurd rfl h
  chain := by simp
  stages := by simp
  stage := trivial

theorem settle_sound {base base' : Base} {files files' : Redirections} {focus : Focus}
    (hb : base.Sound) (h : settle base files focus = some (base', files')) : base'.Sound := by
  unfold settle at h
  split at h
  · obtain ⟨rfl, rfl⟩ : base = base' ∧ files = files' := by simpa using h
    exact hb
  · cases h
  · cases h
  · split at h
    · obtain ⟨rfl, -⟩ : _ = base' ∧ files = files' := by simpa using h
      trivial
    · cases h
  · split at h
    · cases h
    · obtain ⟨rfl, -⟩ : base = base' ∧ _ = files' := by simpa using h
      exact hb

theorem Stage.tree?_fits {s : Stage} {t : Tree} (hs : s.Sound) (h : s.tree? = some t) :
    Fits .stage t := by
  unfold Stage.tree? at h
  split at h
  · cases h
  · split at h
    · cases h
      exact .plain ..
    · next he =>
      cases h
      exact .group _ (settle_sound hs he)
    · cases h

theorem startItem_sound {base : Base} {files : Redirections} {x : Lexeme} {s : Stage}
    (hb : base.Sound) (h : startItem base files x = some s) : s.Sound := by
  unfold startItem at h
  split at h
  · cases h
    exact hb
  · split at h
    · cases h
    · split at h
      · cases h
      · split at h <;> cases h <;> trivial
  · split at h
    · cases h
    · cases h
      trivial
  · cases h

private theorem empty_sound : (Base.words []).Sound := trivial

theorem Stage.word_sound {sp : Bool} {x : Lexeme} {s s' : Stage} (hs : s.Sound)
    (h : s.word sp x = some s') : s'.Sound := by
  unfold Stage.word at h
  split at h
  · split at h
    · split at h
      · cases h
      · exact startItem_sound empty_sound h
    · exact startItem_sound empty_sound h
  · split at h
    · cases h
    · cases h
      exact hs
    · split at h
      · cases h
        exact hs
      · obtain ⟨⟨base, files⟩, he, h⟩ := Option.bind_eq_some_iff.mp h
        exact startItem_sound (settle_sound hs he) h
    · exact startItem_sound hs h

theorem Stage.redirect_sound {op : Operator} {s s' : Stage} (hs : s.Sound)
    (h : s.redirect op = some s') : s'.Sound := by
  unfold Stage.redirect at h
  split at h
  · obtain ⟨slot, -, rfl⟩ := Option.map_eq_some_iff.mp h
    trivial
  · obtain ⟨slot, -, rfl⟩ := Option.map_eq_some_iff.mp h
    exact hs
  · obtain ⟨⟨base, files⟩, he, h⟩ := Option.bind_eq_some_iff.mp h
    obtain ⟨slot, -, rfl⟩ := Option.map_eq_some_iff.mp h
    exact settle_sound hs he

namespace Level
variable {lv : Level} {t : Tree}

theorem Sound.joinStages (hs : lv.Sound) (ht : Fits .stage t) :
    Fits .pipeline (joinStages lv.stages t) := by
  cases he : lv.stages with
  | none => exact .stage ht
  | some l => exact .pipe (hs.stages l he) ht

theorem Sound.joinChain (hs : lv.Sound) (ht : Fits .stage t) :
    Fits .chain (joinChain lv.chain (Line.joinStages lv.stages t)) := by
  cases he : lv.chain with
  | none => exact .pipeline (hs.joinStages ht)
  | some entry =>
    obtain ⟨hk, hl⟩ := hs.chain entry.1 entry.2 he
    exact .connect hk hl (hs.joinStages ht)

theorem Sound.joinDone (hs : lv.Sound) (ht : Fits .chain t) : Fits .list (joinDone lv.done t) := by
  unfold Line.joinDone
  split
  · exact .chain ht
  · next he =>
    refine .sequence (hs.done ?_) ht
    intro habs
    simp [habs] at he

/-- A level between two statements. -/
theorem sound_of_done (h : Fits .list t) : ({ done := t } : Level).Sound :=
  { sound_empty with done := fun _ => h }

theorem Sound.endStatement {lv' : Level} (hs : lv.Sound) (h : lv.endStatement = some lv') :
    lv'.Sound ∧ Fits .list lv'.done := by
  obtain ⟨t, he, rfl⟩ := Option.map_eq_some_iff.mp h
  have hd := hs.joinDone (hs.joinChain (lv.stage.tree?_fits hs.stage he))
  exact ⟨sound_of_done hd, hd⟩

theorem Sound.tree? (hs : lv.Sound) (h : lv.tree? = some t) (ht : t ≠ .absent) :
    Fits .list t := by
  unfold Level.tree? at h
  split at h
  · split at h
    · cases h
      exact hs.done ht
    · cases h
  · obtain ⟨lv', he, rfl⟩ := Option.map_eq_some_iff.mp h
    exact (hs.endStatement he).2

theorem Sound.withStage {s : Stage} (hs : lv.Sound) (h : s.Sound) :
    ({ lv with stage := s } : Level).Sound := { hs with stage := h }

/-- Waiting for the right side of a connective. -/
theorem Sound.withChain {kind : Kind} (hs : lv.Sound) (hk : kind = .and ∨ kind = .or)
    (ht : Fits .chain t) : ({ done := lv.done, chain := some (kind, t) } : Level).Sound where
  done := hs.done
  chain _ _ he := by cases he; exact ⟨hk, ht⟩
  stages := by simp
  stage := trivial

end Level

/-- One lexeme keeps every tree at its rank. -/
theorem State.Sound.step {st st' : State} {x : Spaced} (hs : st.Sound)
    (h : st.step x = some st') : st'.Sound := by
  obtain ⟨sp, x⟩ := x
  have hl := hs.level
  have ended (h : st.level.endStatement.map (fun level => { st with level }) = some st') :
      st'.Sound := by
    obtain ⟨lv, he, rfl⟩ := Option.map_eq_some_iff.mp h
    exact ⟨(hl.endStatement he).1, hs.outer⟩
  obtain rfl | rfl | rfl | ⟨op, kind, hop, rfl⟩ | rfl | rfl | ⟨op, hop, rfl⟩ | hx :=
    State.lexeme_cases x
  · rw [step_newline] at h
    split at h
    · cases h
      exact hs
    · exact ended h
  · exact ended h
  · obtain ⟨t, he, rfl⟩ := Option.map_eq_some_iff.mp h
    refine ⟨{ hl with stages := ?_, stage := trivial }, hs.outer⟩
    rintro _ ⟨⟩
    exact hl.joinStages (Stage.tree?_fits hl.stage he)
  · rw [step_connective _ _ hop] at h
    obtain ⟨t, he, rfl⟩ := Option.map_eq_some_iff.mp h
    have hk : kind = .and ∨ kind = .or := by
      cases op <;> simp_all [connectiveKind]
    exact ⟨hl.withChain hk (hl.joinChain (Stage.tree?_fits hl.stage he)), hs.outer⟩
  · rw [step_open] at h
    split at h
    · cases h
      refine ⟨Level.sound_empty, ?_⟩
      intro lv hm
      rcases List.mem_cons.mp hm with rfl | hm
      · exact hl
      · exact hs.outer lv hm
    · cases h
  · rw [step_close] at h
    split at h
    · next up outer inner ho hi =>
      split at h
      · cases h
      · next hp =>
        cases h
        have hup : up.Sound := hs.outer up (by simp [ho])
        have hin : Fits .list inner := hl.tree? hi (by rintro rfl; simp at hp)
        exact ⟨hup.withStage hin, fun lv hm => hs.outer lv (by simp [ho, hm])⟩
    · cases h
  · rw [step_redirect _ _ hop] at h
    obtain ⟨s, he, rfl⟩ := Option.map_eq_some_iff.mp h
    exact ⟨hl.withStage (Stage.redirect_sound hl.stage he), hs.outer⟩
  · rw [step_word _ _ hx] at h
    obtain ⟨s, he, rfl⟩ := Option.map_eq_some_iff.mp h
    exact ⟨hl.withStage (Stage.word_sound hl.stage he), hs.outer⟩

theorem State.Sound.run {st st' : State} {xs : List Spaced} (hs : st.Sound)
    (h : st.run xs = some st') : st'.Sound := by
  induction xs generalizing st with
  | nil =>
    cases h
    exact hs
  | cons x xs ih =>
    obtain ⟨next, hx, h⟩ := Option.bind_eq_some_iff.mp h
    exact ih (hs.step hx) h

theorem State.sound_empty : ({} : State).Sound := ⟨Level.sound_empty, by simp⟩

theorem read?_fits {line : Bytes} {t : Tree} (h : read? line = some t) (ht : t ≠ .absent) :
    Fits .list t := by
  obtain ⟨xs, st, -, hr, he⟩ := read?_eq_some_iff.mp h
  unfold State.tree? at he
  split at he
  · exact (State.sound_empty.run hr).level.tree? he ht
  · cases he

/-- Every tree that a line gives is valid, and every node of it has the shape its kind asks for. -/
theorem parse_ok_shape {line : Bytes} {t : Tree} (h : parse line = .ok t) (present : t ≠ .absent) :
    t.isValid = true ∧ t.Everywhere NodeShape := by
  have hf := read?_fits (parse_eq_ok_iff.mp h) present
  exact ⟨by simp [Tree.isValid, hf.defect_eq_none], hf.nodeShape⟩

theorem parse_ok_shape_pipeline :
    (Tree.or (.pipe (.plain ["a"]) (.subshell (.plain ["b"]))) (.plain ["c"])).isValid = true ∧
      (Tree.or (.pipe (.plain ["a"]) (.subshell (.plain ["b"]))) (.plain ["c"])).Everywhere
        NodeShape := by
  have h : parse "a | ( b ) || c" =
      .ok (.or (.pipe (.plain ["a"]) (.subshell (.plain ["b"]))) (.plain ["c"])) :=
    parse_eq_ok_iff.mpr (by decide +kernel)
  exact parse_ok_shape h (by decide)

end CommandShell.Line
