import CommandShell.Proofs.ConcurrentRun

/-! What is told of files. What one side of a node tells of its files says that it closes what it opened
for a node, or was handed for it, once the commands there have ended. The news of both sides say so in
whatever order they come. -/
namespace CommandShell

/-- Open files, each with the node it was opened for. -/
abbrev Held := List (TreePosition × Nat)

def Held.handles (held : Held) : List Nat := held.map Prod.snd

theorem Held.handles_append (a b : Held) : handles (a ++ b) = handles a ++ handles b := List.map_append

def openings (news : List News) : Held := news.filterMap fun n =>
  match n.happening with
  | .opened h => some (n.position, h)
  | _ => none

def closings (news : List News) : Held := news.filterMap fun n =>
  match n.happening with
  | .closed h => some (n.position, h)
  | _ => none

section
variable (a b : List News)

@[simp] theorem openings_append : openings (a ++ b) = openings a ++ openings b :=
  List.filterMap_append

@[simp] theorem closings_append : closings (a ++ b) = closings a ++ closings b :=
  List.filterMap_append

variable {a b}

theorem openings_perm (h : a.Perm b) : (openings a).Perm (openings b) := h.filterMap _

theorem closings_perm (h : a.Perm b) : (closings a).Perm (closings b) := h.filterMap _

end

theorem mem_closings {news : List News} {p : TreePosition} {h : Nat} :
    (p, h) ∈ closings news ↔ ⟨p, .closed h⟩ ∈ news := by
  simp only [closings, List.mem_filterMap]
  constructor
  · rintro ⟨⟨q, e⟩, hm, he⟩
    cases e <;> simp_all
  · exact fun hm => ⟨_, hm, rfl⟩

/-- Every command that began at a node or below it has ended. -/
def AllEnded (p : TreePosition) (news : List News) : Prop :=
  ∀ q, p <+: q → ∀ n, news.count ⟨q, .began n⟩ = news.count ⟨q, .ended n⟩

/-- News of what some files were used for, from those held before to those held afterwards. A file is
closed for the node that it was opened for, and no command there is running any more. -/
structure Keeps (held : Held) (news : List News) (held' : Held) : Prop where
  ended : AllEnded [] news
  files : (held ++ openings news).Perm (closings news ++ held')
  closing : ∀ before p h rest, news = before ++ ⟨p, .closed h⟩ :: rest →
    (p, h) ∈ held ++ openings before ∧ AllEnded p before

theorem AllEnded.below {news : List News} (h : AllEnded [] news) (p : TreePosition) : AllEnded p news :=
  fun q _ => h q (List.nil_prefix)

theorem AllEnded.append {p : TreePosition} {a b : List News} (ha : AllEnded p a) (hb : AllEnded p b) :
    AllEnded p (a ++ b) := fun q hq n => by
  rw [List.count_append, List.count_append, ha q hq, hb q hq]

namespace Keeps
variable {a b c : Held} {s t : List News}

theorem nil (held : Held) : Keeps held [] held :=
  ⟨fun _ _ _ => rfl, by simp [openings, closings], by simp⟩

theorem trans (hs : Keeps a s b) (ht : Keeps b t c) : Keeps a (s ++ t) c where
  ended := hs.ended.append ht.ended
  files := by
    rw [openings_append, closings_append, ← List.append_assoc a, List.append_assoc (closings s)]
    refine (hs.files.append_right _).trans ?_
    rw [List.append_assoc]
    exact ht.files.append_left _
  closing before p h rest he := by
    rcases List.append_eq_append_iff.mp he with ⟨more, rfl, hmore⟩ | ⟨more, rfl, hmore⟩
    · -- closed in the second part
      obtain ⟨hm, hended⟩ := ht.closing _ _ _ _ hmore
      refine ⟨?_, (hs.ended.below p).append hended⟩
      rw [openings_append, ← List.append_assoc]
      rcases List.mem_append.mp hm with hm | hm
      · exact List.mem_append_left _ (hs.files.mem_iff.mpr (List.mem_append_right _ hm))
      · exact List.mem_append_right _ hm
    · cases more with
      | nil =>
        obtain ⟨hm, -⟩ := ht.closing [] p h rest hmore.symm
        refine ⟨?_, ?_⟩
        · simpa [openings] using hs.files.mem_iff.mpr (List.mem_append_right _ (by simpa [openings] using hm))
        · simpa using hs.ended.below p
      | cons e more =>
        obtain ⟨rfl, -⟩ := List.cons_eq_cons.mp hmore
        exact hs.closing before p h more rfl

/-- Files that are held besides stay as they are. -/
theorem frame (more : Held) (h : Keeps a s b) : Keeps (more ++ a) s (more ++ b) where
  ended := h.ended
  files := by
    rw [List.append_assoc]
    exact (h.files.append_left more).trans (List.perm_append_comm_assoc ..)
  closing before p handle rest he := by
    obtain ⟨hm, hended⟩ := h.closing before p handle rest he
    rw [List.append_assoc]
    exact ⟨List.mem_append_right _ hm, hended⟩

theorem perm {a' : Held} (h : Keeps a s b) (ha : a'.Perm a) : Keeps a' s b where
  ended := h.ended
  files := (ha.append_right _).trans h.files
  closing before p handle rest he := by
    obtain ⟨hm, hended⟩ := h.closing before p handle rest he
    exact ⟨(ha.append_right _).mem_iff.mpr hm, hended⟩

theorem opened (p : TreePosition) (h : Nat) : Keeps [] [⟨p, .opened h⟩] [(p, h)] where
  ended q _ n := by simp
  files := .refl _
  closing before q handle rest he := by
    have hm : (⟨q, .closed handle⟩ : News) ∈ [⟨p, .opened h⟩] := by simp [he]
    simp at hm

theorem closed (p : TreePosition) (h : Nat) : Keeps [(p, h)] [⟨p, .closed h⟩] [] where
  ended q _ n := by simp
  files := .refl _
  closing before q handle rest he := by
    cases before with
    | nil =>
      obtain ⟨⟨rfl, ⟨⟩⟩, -⟩ := List.cons_eq_cons.mp he
      exact ⟨by simp, fun _ _ _ => rfl⟩
    | cons e before => simp at he

theorem ran (p : TreePosition) (n : Nat) : Keeps [] [⟨p, .began n⟩, ⟨p, .ended n⟩] [] where
  ended q _ m := by simp [List.count_cons]
  files := .refl _
  closing before q h rest he := by
    have hm : (⟨q, .closed h⟩ : News) ∈ [⟨p, .began n⟩, ⟨p, .ended n⟩] := by simp [he]
    simp at hm

end Keeps

/-! The news of one side of a node, and of both. -/

/-- Files as they are seen from the node above. -/
def Held.within (side : Side) (held : Held) : Held := held.map fun entry => (side :: entry.1, entry.2)

theorem openings_within (side : Side) (news : List News) :
    openings (news.map (News.within side)) = (openings news).within side := by
  rw [openings, List.filterMap_map, openings, Held.within, List.map_filterMap]
  refine List.filterMap_congr fun n _ => ?_
  obtain ⟨p, _ | _ | _ | _⟩ := n <;> rfl

theorem closings_within (side : Side) (news : List News) :
    closings (news.map (News.within side)) = (closings news).within side := by
  rw [closings, List.filterMap_map, closings, Held.within, List.map_filterMap]
  refine List.filterMap_congr fun n _ => ?_
  obtain ⟨p, _ | _ | _ | _⟩ := n <;> rfl

theorem count_within (side : Side) (news : List News) (p : TreePosition) (e : Happening) :
    (news.map (News.within side)).count ⟨side :: p, e⟩ = news.count ⟨p, e⟩ := by
  have hinj : Function.Injective (News.within side) := by
    rintro ⟨p, e⟩ ⟨q, e'⟩ h
    simpa [News.within] using h
  exact List.count_map_of_injective news _ hinj ⟨p, e⟩

theorem count_within_of_ne {side : Side} {p : TreePosition} (hp : ∀ q, p ≠ side :: q)
    (news : List News) (e : Happening) : (news.map (News.within side)).count ⟨p, e⟩ = 0 := by
  rw [List.count_eq_zero]
  rintro hm
  obtain ⟨n, -, hn⟩ := List.mem_map.mp hm
  exact hp n.position (congrArg News.position hn).symm

/-- Commands of the one side have ended for every node of that side, and for the others none of them
matters. -/
theorem AllEnded.within {side : Side} {news : List News} {p : TreePosition} (h : AllEnded p news) :
    AllEnded (side :: p) (news.map (News.within side)) := by
  intro q hq n
  obtain ⟨rest, rfl⟩ := hq
  rw [List.cons_append, count_within, count_within]
  exact h _ (List.prefix_append ..) n

theorem AllEnded.within_root {side : Side} {news : List News} (h : AllEnded [] news) :
    AllEnded [] (news.map (News.within side)) := by
  intro q _ n
  by_cases hq : ∃ p, q = side :: p
  · obtain ⟨p, rfl⟩ := hq
    rw [count_within, count_within]
    exact h p List.nil_prefix n
  · have hne : ∀ p, q ≠ side :: p := fun p he => hq ⟨p, he⟩
    rw [count_within_of_ne hne, count_within_of_ne hne]

theorem AllEnded.within_other {side other : Side} (hne : other ≠ side) (news : List News)
    (p : TreePosition) : AllEnded (side :: p) (news.map (News.within other)) := by
  intro q hq n
  obtain ⟨rest, rfl⟩ := hq
  have hother : ∀ r, side :: p ++ rest ≠ other :: r := by
    intro r he
    exact hne (List.cons_eq_cons.mp he).1.symm
  rw [count_within_of_ne hother, count_within_of_ne hother]

theorem AllEnded.perm {p : TreePosition} {a b : List News} (h : AllEnded p a) (hp : a.Perm b) :
    AllEnded p b := fun q hq n => by
  rw [← hp.count_eq, ← hp.count_eq, h q hq]

namespace Interleaving
variable {α : Type} {xs ys zs : List α}

theorem symm (h : Interleaving xs ys zs) : Interleaving ys xs zs := by
  induction h with
  | nil => exact .nil
  | left x _ ih => exact .right x ih
  | right y _ ih => exact .left y ih

/-- What stands somewhere in between comes from one of the sides. -/
theorem split {before rest : List α} {x : α} (h : Interleaving xs ys (before ++ x :: rest)) :
    (∃ b r b', xs = b ++ x :: r ∧ b' <+: ys ∧ Interleaving b b' before) ∨
      ∃ b r b', ys = b ++ x :: r ∧ b' <+: xs ∧ Interleaving b' b before := by
  induction before generalizing xs ys with
  | nil =>
    cases h with
    | left _ h => exact .inl ⟨[], _, [], rfl, List.nil_prefix, .nil⟩
    | right _ h => exact .inr ⟨[], _, [], rfl, List.nil_prefix, .nil⟩
  | cons y before ih =>
    cases h with
    | left _ h =>
      obtain ⟨b, r, b', rfl, hb, hi⟩ | ⟨b, r, b', rfl, hb, hi⟩ := ih h
      · exact .inl ⟨y :: b, r, b', rfl, hb, .left y hi⟩
      · exact .inr ⟨b, r, y :: b', rfl, List.cons_prefix_cons.mpr ⟨rfl, hb⟩, .left y hi⟩
    | right _ h =>
      obtain ⟨b, r, b', rfl, hb, hi⟩ | ⟨b, r, b', rfl, hb, hi⟩ := ih h
      · exact .inl ⟨b, r, y :: b', rfl, List.cons_prefix_cons.mpr ⟨rfl, hb⟩, .right y hi⟩
      · exact .inr ⟨y :: b, r, b', rfl, hb, .right y hi⟩

end Interleaving

namespace Keeps
variable {a b : Held} {s t news : List News}

theorem within {c : Held} (side : Side) (h : Keeps a s c) :
    Keeps (a.within side) (s.map (News.within side)) (c.within side) where
  ended := h.ended.within_root
  files := by
    rw [openings_within, closings_within, Held.within, Held.within, Held.within, Held.within,
      ← List.map_append, ← List.map_append]
    exact h.files.map _
  closing before p handle rest he := by
    obtain ⟨first, more, rfl, rfl, hmore⟩ := List.map_eq_append_iff.mp he
    obtain ⟨⟨q, e⟩, last, rfl, hq, rfl⟩ := List.map_eq_cons_iff.mp hmore
    obtain ⟨rfl, rfl⟩ : side :: q = p ∧ e = .closed handle := by simpa [News.within] using hq
    obtain ⟨hm, hended⟩ := h.closing first q handle last rfl
    refine ⟨?_, hended.within⟩
    rw [openings_within, Held.within, Held.within, ← List.map_append]
    exact List.mem_map_of_mem hm

/-- A file that one side closes is closed in time, whatever the other side does meanwhile. -/
theorem closing_both {side other : Side} (hne : other ≠ side) {mine : List News} (hmine : Keeps a mine [])
    {first before r : List News} {p : TreePosition} {h : Nat}
    (hfirst : mine.map (News.within side) = first ++ ⟨p, .closed h⟩ :: r) {others : List News}
    (hothers : others <+: t.map (News.within other)) (hp : before.Perm (first ++ others)) :
    (p, h) ∈ a.within side ++ openings before ∧ AllEnded p before := by
  obtain ⟨hm, hended⟩ := (hmine.within side).closing first p h r hfirst
  have hopenings := openings_perm hp
  rw [openings_append] at hopenings
  refine ⟨?_, AllEnded.perm ?_ hp.symm⟩
  · rcases List.mem_append.mp hm with hm | hm
    · exact List.mem_append_left _ hm
    · exact List.mem_append_right _ (hopenings.mem_iff.mpr (List.mem_append_left _ hm))
  · refine hended.append ?_
    have hmem : (⟨p, .closed h⟩ : News) ∈ mine.map (News.within side) := by simp [hfirst]
    obtain ⟨n, -, hn⟩ := List.mem_map.mp hmem
    obtain rfl : side :: n.position = p := congrArg News.position hn
    rw [List.prefix_iff_eq_take.mp hothers, ← List.map_take]
    exact .within_other hne _ _

/-- Each side closes what it was handed, in whatever order the two do their work. -/
theorem both (hs : Keeps a s []) (ht : Keeps b t [])
    (h : Interleaving (s.map (News.within .left)) (t.map (News.within .right)) news) :
    Keeps (a.within .left ++ b.within .right) news [] where
  ended := (hs.ended.within_root.append ht.ended.within_root).perm h.perm.symm
  files := by
    have hopenings := openings_perm h.perm
    have hclosings := closings_perm h.perm
    rw [openings_append] at hopenings
    rw [closings_append] at hclosings
    have hboth := (hs.within .left).files.append (ht.within .right).files
    refine (hopenings.append_left _).trans ?_
    rw [List.append_assoc]
    refine ((List.perm_append_comm_assoc ..).append_left _).trans ?_
    rw [← List.append_assoc]
    refine hboth.trans ?_
    simpa [Held.within] using hclosings.symm
  closing before p handle rest he := by
    subst he
    obtain ⟨first, r, others, hfirst, hothers, hi⟩ | ⟨first, r, others, hfirst, hothers, hi⟩ := h.split
    · obtain ⟨hm, hended⟩ := closing_both (by decide) hs hfirst hothers hi.perm
      refine ⟨?_, hended⟩
      simp only [List.mem_append] at hm ⊢
      tauto
    · obtain ⟨hm, hended⟩ := closing_both (by decide) ht hfirst hothers hi.symm.perm
      refine ⟨?_, hended⟩
      simp only [List.mem_append] at hm ⊢
      tauto

end Keeps

/-! What moves tell. -/

def newsOf (moves : List Move) : List News := moves.flatMap Move.news

theorem newsOf_append (a b : List Move) : newsOf (a ++ b) = newsOf a ++ newsOf b :=
  List.flatMap_append

theorem newsOf_within (side : Side) (moves : List Move) :
    newsOf (moves.map (Move.within side)) = (newsOf moves).map (News.within side) := by
  simp only [newsOf, List.flatMap_map, List.map_flatMap]
  rfl

theorem Interleaving.newsOf {xs ys zs : List Move} (h : Interleaving xs ys zs) :
    Interleaving (newsOf xs) (newsOf ys) (newsOf zs) := by
  have front (news : List News) {a b c : List News} (h : Interleaving a b c) :
      Interleaving (news ++ a) b (news ++ c) := by
    induction news with
    | nil => exact h
    | cons n news ih => exact .left n ih
  induction h with
  | nil => exact .nil
  | left x _ ih => exact front x.news ih
  | right y _ ih => exact (front y.news ih.symm).symm

end CommandShell
