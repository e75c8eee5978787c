import CommandShell.Proofs.MadeDirectories
import Mathlib.Data.List.Induction

/-! Where a path and its clean form lead, on any disk. Cleaning a path leaves out the parts that are no
names, and each of these needs a directory at the place in front of it. If they all find theirs, then
both paths lead to the same, through whatever links; if one does not, then only the clean form can lead
to anything. -/
namespace CommandShell

namespace Path

/-- A directory that a path needs at a place. It may be behind a link if links are followed. -/
structure Need where
  followed : Bool
  place : Place
  deriving DecidableEq, Repr

/-- What a part needs behind the names that are kept, if it is no name: a directory at their place, and
a parent reference needs one that is not behind a link. -/
def need (kept : List Bytes) (part : Bytes) : List Need :=
  if part.isEmpty || part == "." then [⟨true, kept.reverse⟩]
  else if part == ".." then [⟨false, kept.reverse⟩]
  else []

/-- What the parts of a rooted path need, one after the other. -/
def needs (kept : List Bytes) : List Bytes → List Need
  | [] => []
  | part :: parts => need kept part ++ needs (place true kept part) parts

theorem need_none {kept : List Bytes} {part : Bytes} (h : part = [] ∨ part = ".") :
    need kept part = [⟨true, kept.reverse⟩] := by
  rcases h with rfl | rfl <;> rfl

theorem need_parent (kept : List Bytes) : need kept ".." = [⟨false, kept.reverse⟩] := rfl

theorem need_name {kept : List Bytes} {part : Bytes} (h : IsName part) : need kept part = [] := by
  have hnil : part.isEmpty = false := by simpa using h.ne_nil
  simp [need, hnil, h.ne_self, h.ne_parent]

theorem needs_append (kept front rest : List Bytes) :
    needs kept (front ++ rest) = needs kept front ++ needs (follow kept front) rest := by
  induction front generalizing kept with
  | nil => rfl
  | cons part front ih => rw [List.cons_append, needs, ih, needs, List.append_assoc]; rfl

theorem needs_concat (kept front : List Bytes) (part : Bytes) :
    needs kept (front ++ [part]) = needs kept front ++ need (follow kept front) part := by
  rw [needs_append, needs, needs, List.append_nil]

theorem follow_concat (kept front : List Bytes) (part : Bytes) :
    follow kept (front ++ [part]) = place true (follow kept front) part := by
  rw [follow, List.foldl_append]
  rfl

end Path

namespace Disk
variable {d : Disk} {follow : Bool} {links : Nat} {here : Place} {part : Bytes} {rest : List Bytes}

/-! ### Steps of a walk -/

/-- There is a directory at a place. -/
def Holds (d : Disk) (here : Place) : Prop := ∃ mode, d.item? here = some (.directory mode)

theorem Holds.walk_nil (h : d.Holds here) (follow : Bool) (links : Nat) :
    ∃ mode, d.walk follow links here [] = .ok (.item here (.directory mode)) := by
  obtain ⟨mode, hd⟩ := h
  exact ⟨mode, by rw [walk.eq_def, hd]⟩

theorem Holds.walk_none (h : d.Holds here) (hp : part = [] ∨ part = ".") (rest : List Bytes) :
    d.walk follow links here (part :: rest) = d.walk follow links here rest := by
  obtain ⟨mode, hd⟩ := h
  exact walk_skip hd (by simpa using hp)

theorem Holds.walk_parent (h : d.Holds here) (rest : List Bytes) :
    d.walk follow links here (".." :: rest) = d.walk follow links here.dropLast rest := by
  obtain ⟨mode, hd⟩ := h
  exact walk_up hd (by decide) rfl

theorem walk_cons_of_not_holds (h : ¬ d.Holds here) (follow : Bool) (links : Nat) (part : Bytes)
    (rest : List Bytes) : ∃ e, d.walk follow links here (part :: rest) = .error e := by
  rw [walk.eq_def]
  cases hd : d.item? here with
  | none => exact ⟨_, rfl⟩
  | some item =>
    cases item with
    | directory mode => exact absurd ⟨mode, hd⟩ h
    | file | link | null => exact ⟨_, rfl⟩

theorem holds_of_walk_cons {found : Found}
    (h : d.walk follow links here (part :: rest) = .ok found) : d.Holds here := by
  refine Classical.byContradiction fun hd => ?_
  obtain ⟨e, he⟩ := walk_cons_of_not_holds hd follow links part rest
  rw [he] at h
  cases h

/-- A name is too long, or is free, or stands for something where the walk goes on, or for a link. -/
theorem Holds.walk_name_cases (h : d.Holds here) (hp : Path.IsName part) (links : Nat) :
    (∃ e, ∀ follow rest, d.walk follow links here (part :: rest) = .error e) ∨
    (∀ follow rest, d.walk follow links here (part :: rest) =
      if rest.all (·.isEmpty) then .ok (.free (here ++ [part])) else .error .missing) ∨
    (∃ item, d.item? (here ++ [part]) = some item ∧ ∀ follow rest,
      d.walk follow links here (part :: rest) = d.walk follow links (here ++ [part]) rest) ∨
    ∃ target, d.walk false links here [part] = .ok (.item (here ++ [part]) (.link target)) := by
  obtain ⟨mode, hd⟩ := h
  have hnone : ¬ (part.isEmpty || part == ".") = true := by simpa using ⟨hp.ne_nil, hp.ne_self⟩
  have hparent : ¬ (part == "..") = true := by simpa using hp.ne_parent
  by_cases hlong : part.length > nameLimit
  · refine .inl ⟨.nameTooLong, fun follow rest => ?_⟩
    rw [walk.eq_def, hd]
    simp only [hnone, hparent, hlong, Bool.false_eq_true, if_false, if_true]
  cases hitem : d.item? (here ++ [part]) with
  | none =>
    refine .inr (.inl fun follow rest => ?_)
    rw [walk.eq_def, hd]
    simp only [hnone, hparent, hlong, hitem, Bool.false_eq_true, if_false]
  | some item =>
    cases item with
    | link target =>
      exact .inr (.inr (.inr ⟨target, walk_last hd hnone hparent hlong hitem rfl⟩))
    | directory | file | null =>
      exact .inr (.inr (.inl ⟨_, rfl, fun follow rest =>
        walk_name hd hnone hparent hlong hitem (by simp)⟩))

/-! ### Where parts lead -/

/-- Whatever comes behind the parts is walked from a directory. A link at the end is not gone through
if nothing comes behind it, which is why the walk has to follow then. -/
structure Leads (d : Disk) (links : Nat) (here : Place) (parts : List Bytes) (left : Nat)
    (there : Place) : Prop where
  holds : d.Holds there
  walk_append : ∀ follow rest, (rest = [] → follow = true) →
    d.walk follow links here (parts ++ rest) = d.walk follow left there rest

/-- What a walk comes to if it gets to no directory in front of the rest. -/
def Fruitless (rest : List Bytes) : Except PathError Found → Prop
  | .error _ => True
  | .ok (.item _ item) => rest = [] ∧ item.isDirectory = false
  | .ok (.free _) => rest.all (·.isEmpty) = true

/-- Whatever comes behind the parts is not walked from a directory. -/
def Stuck (d : Disk) (links : Nat) (here : Place) (parts : List Bytes) : Prop :=
  ∀ follow rest, (rest = [] → follow = true) →
    Fruitless rest (d.walk follow links here (parts ++ rest))

section
variable {left last : Nat} {there beyond : Place} {parts more : List Bytes}

theorem Leads.refl (h : d.Holds here) (links : Nat) : d.Leads links here [] links here :=
  ⟨h, fun _ _ _ => rfl⟩

theorem Leads.trans (h : d.Leads links here parts left there)
    (h' : d.Leads left there more last beyond) : d.Leads links here (parts ++ more) last beyond := by
  refine ⟨h'.holds, fun follow rest hrest => ?_⟩
  rw [List.append_assoc, h.walk_append, h'.walk_append follow rest hrest]
  intro hnil
  exact hrest (List.append_eq_nil_iff.mp hnil).2

theorem Leads.stuck (h : d.Leads links here parts left there) (h' : d.Stuck left there more) :
    d.Stuck links here (parts ++ more) := by
  intro follow rest hrest
  rw [List.append_assoc, h.walk_append]
  · exact h' follow rest hrest
  · intro hnil
    exact hrest (List.append_eq_nil_iff.mp hnil).2

theorem Stuck.append (h : d.Stuck links here parts) (more : List Bytes) :
    d.Stuck links here (parts ++ more) := by
  intro follow rest hrest
  rw [List.append_assoc]
  have hall := h follow (more ++ rest) fun hnil => hrest (List.append_eq_nil_iff.mp hnil).2
  revert hall
  generalize d.walk follow links here (parts ++ (more ++ rest)) = result
  rcases result with e | ⟨place, item⟩ | place
  · exact id
  · exact fun ⟨hnil, hitem⟩ => ⟨(List.append_eq_nil_iff.mp hnil).2, hitem⟩
  · intro hempty
    rw [Fruitless, List.all_append, Bool.and_eq_true] at hempty
    exact hempty.2

theorem Leads.not_stuck (h : d.Leads links here parts left there) : ¬ d.Stuck links here parts := by
  intro hs
  obtain ⟨mode, hd⟩ := h.holds.walk_nil true left
  have hall := hs true [] fun _ => rfl
  rw [h.walk_append true [] fun _ => rfl, hd] at hall
  exact absurd hall.2 (by simp [Item.isDirectory])

theorem Stuck.error_of_name (h : d.Stuck links here parts) (hp : Path.IsName part) :
    ∃ e, d.walk true links here (parts ++ [part]) = .error e := by
  have hall := h true [part] (by simp)
  revert hall
  generalize d.walk true links here (parts ++ [part]) = result
  rcases result with e | ⟨place, item⟩ | place
  · exact fun _ => ⟨e, rfl⟩
  · rintro ⟨hnil, -⟩
    cases hnil
  · intro hempty
    exact absurd (by simpa [Fruitless] using hempty) hp.ne_nil

theorem Stuck.of_walk (h : ∀ follow rest, (rest = [] → follow = true) →
    d.walk follow links here (parts ++ rest) = d.walk follow left there (more ++ rest))
    (hs : d.Stuck left there more) : d.Stuck links here parts := by
  intro follow rest hrest
  rw [h follow rest hrest]
  exact hs follow rest hrest

theorem Leads.of_walk (h : ∀ follow rest, (rest = [] → follow = true) →
    d.walk follow links here (parts ++ rest) = d.walk follow left there (more ++ rest))
    (hl : d.Leads left there more last beyond) : d.Leads links here parts last beyond :=
  ⟨hl.holds, fun follow rest hrest => (h follow rest hrest).trans (hl.walk_append follow rest hrest)⟩

/-- Parts lead to a directory or they do not. -/
theorem leads_or_stuck (d : Disk) (links : Nat) (here : Place) (parts : List Bytes) :
    (∃ left there, d.Leads links here parts left there) ∨ d.Stuck links here parts := by
  -- A step of the walk that is the same with anything behind the parts.
  have step {links left : Nat} {here there : Place} {parts more : List Bytes}
      (h : ∀ follow rest, (rest = [] → follow = true) →
        d.walk follow links here (parts ++ rest) = d.walk follow left there (more ++ rest))
      (ih : (∃ last beyond, d.Leads left there more last beyond) ∨ d.Stuck left there more) :
      (∃ last beyond, d.Leads links here parts last beyond) ∨ d.Stuck links here parts :=
    ih.imp (fun ⟨last, beyond, hl⟩ => ⟨last, beyond, hl.of_walk h⟩) fun hs => hs.of_walk h
  generalize hf : true = follow
  fun_induction d.walk follow links here parts with
  | case1 _ here parts hnone =>
    refine .inr fun follow rest hrest => ?_
    rw [walk.eq_def]
    simp only [hnone]
    trivial
  | case2 links here item hitem =>
    by_cases hd : d.Holds here
    · exact .inl ⟨links, here, .refl hd links⟩
    · refine .inr fun follow rest hrest => ?_
      cases rest with
      | nil =>
        rw [List.nil_append, walk.eq_def, hitem]
        cases item with
        | directory mode => exact absurd ⟨mode, hitem⟩ hd
        | file | link | null => exact ⟨rfl, rfl⟩
      | cons part rest =>
        obtain ⟨e, he⟩ := walk_cons_of_not_holds hd follow links part rest
        rw [List.nil_append, he]
        trivial
  | case3 _ here part parts mode hd hnone ih =>
    refine step (fun follow rest hrest => ?_) ih
    exact Holds.walk_none ⟨mode, hd⟩ (by simpa using hnone) _
  | case4 _ here part parts mode hd _ hparent ih =>
    obtain rfl : part = ".." := by simpa using hparent
    exact step (fun follow rest hrest => Holds.walk_parent ⟨mode, hd⟩ _) ih
  | case5 _ here part parts mode hd hnone hparent hlong =>
    refine .inr fun follow rest hrest => ?_
    rw [List.cons_append, walk.eq_def, hd]
    simp only [hnone, hparent, hlong, if_true]
    trivial
  | case6 _ here part parts mode hd hnone hparent hlong next hnext
  | case7 _ here part parts mode hd hnone hparent hlong next hnext =>
    refine .inr fun follow rest hrest => ?_
    rw [List.cons_append, walk.eq_def, hd]
    simp only [hnone, hparent, hlong, next, hnext, if_false, Bool.false_eq_true]
    split
    · next hempty =>
      rw [List.all_append, Bool.and_eq_true] at hempty
      exact hempty.2
    · trivial
  | case8 _ here part parts _ _ _ _ _ next target _ hend => simp [← hf] at hend
  | case9 here part parts mode hd hnone hparent hlong next target hnext hend =>
    refine .inr fun follow rest hrest => ?_
    have hgo : ¬ ((parts ++ rest).isEmpty && !follow) = true := by
      simp only [Bool.and_eq_true, List.isEmpty_iff, List.append_eq_nil_iff, Bool.not_eq_true']
      rintro ⟨⟨-, hnil⟩, hstop⟩
      exact absurd ((hrest hnil).symm.trans hstop) (by decide)
    rw [List.cons_append, walk.eq_def, hd]
    simp only [hnone, hparent, hlong, next, hnext, hgo, if_false, Bool.false_eq_true]
    trivial
  | case10 here part parts mode hd hnone hparent hlong next target hnext hend links ih =>
    refine step (fun follow rest hrest => ?_) ih
    have hgo : ¬ ((parts ++ rest).isEmpty && !follow) = true := by
      simp only [Bool.and_eq_true, List.isEmpty_iff, List.append_eq_nil_iff, Bool.not_eq_true']
      rintro ⟨⟨-, hnil⟩, hstop⟩
      exact absurd ((hrest hnil).symm.trans hstop) (by decide)
    rw [List.append_assoc]
    exact walk_link hd hnone hparent hlong hnext hgo
  | case11 _ here part parts mode hd hnone hparent hlong next item hlink hnext ih =>
    refine step (fun follow rest hrest => ?_) ih
    exact walk_name hd hnone hparent hlong hnext hlink
  | case12 links here part parts item hdir hitem =>
    have hd : ¬ d.Holds here := by
      rintro ⟨mode, hd⟩
      exact hdir mode (Option.some.inj (hitem.symm.trans hd))
    refine .inr fun follow rest hrest => ?_
    obtain ⟨e, he⟩ := walk_cons_of_not_holds hd follow links part (parts ++ rest)
    rw [List.cons_append, he]
    trivial

end

/-- Two ways from the root lead to one directory, or neither leads to any. -/
def Joined (d : Disk) (parts parts' : List Bytes) : Prop :=
  (∃ left there, d.Leads linkLimit [] parts left there ∧ d.Leads linkLimit [] parts' left there) ∨
    (d.Stuck linkLimit [] parts ∧ d.Stuck linkLimit [] parts')

theorem Joined.append {parts parts' : List Bytes} (h : d.Joined parts parts') (more : List Bytes) :
    d.Joined (parts ++ more) (parts' ++ more) := by
  obtain ⟨left, there, hl, hl'⟩ | ⟨hs, hs'⟩ := h
  · obtain ⟨last, beyond, hm⟩ | hm := d.leads_or_stuck left there more
    · exact .inl ⟨last, beyond, hl.trans hm, hl'.trans hm⟩
    · exact .inr ⟨hl.stuck hm, hl'.stuck hm⟩
  · exact .inr ⟨hs.append more, hs'.append more⟩

/-! ### Needs that are met -/

/-- There is what a part of a path needs. -/
def Meets (d : Disk) (need : Path.Need) : Prop :=
  ∃ there mode, d.find need.followed [] need.place.path = .ok (.item there (.directory mode))

theorem find_of_takes {path : Bytes} (h : Takes path) (habs : Path.isAbsolute path = true)
    (follow : Bool) :
    d.find follow [] path = d.walk follow linkLimit [] (Bytes.splitOn 47 path) := by
  obtain ⟨h0, hne, hlong⟩ := h
  rw [find, if_neg (by simpa using h0), if_neg (by simpa using hne),
    if_neg (Nat.not_lt_of_le hlong), if_pos habs]

section
variable {place : Place} (hn : ∀ name ∈ place, Path.IsName name)
include hn

/-- The walk of a place starts at the root, which is a directory, and goes through its names. -/
theorem walk_path (hroot : d.Holds []) :
    d.walk follow linkLimit [] (Bytes.splitOn 47 place.path) = d.walk follow linkLimit [] place := by
  rw [Path.splitOn_path fun name hm => (hn name hm).slash, hroot.walk_none (.inl rfl)]
  split
  · next he => rw [he, hroot.walk_none (.inl rfl)]
  · rfl

theorem walk_of_find_path {found : Found} (h : d.find follow [] place.path = .ok found) :
    d.Holds [] ∧ d.walk follow linkLimit [] place = .ok found := by
  obtain ⟨htakes, -⟩ := find_eq_ok_iff.mp h
  rw [find_of_takes htakes (Path.isAbsolute_path place)] at h
  have hroot : d.Holds [] := by
    rw [Path.splitOn_path fun name hm => (hn name hm).slash] at h
    exact holds_of_walk_cons h
  exact ⟨hroot, (walk_path hn hroot).symm.trans h⟩

theorem find_path (htakes : Takes place.path) (hroot : d.Holds []) (follow : Bool) :
    d.find follow [] place.path = d.walk follow linkLimit [] place :=
  (find_of_takes htakes (Path.isAbsolute_path place) follow).trans (walk_path hn hroot)

end

section
variable {kept parts : List Bytes}

/-- A directory behind a name, and not behind a link, is one step away. -/
theorem exists_leads_name (hk : ∀ name ∈ kept, Path.IsName name) {name : Bytes}
    (hname : Path.IsName name) (hneed : d.Meets ⟨false, (name :: kept).reverse⟩) :
    ∃ left there, d.Leads linkLimit [] kept.reverse left there ∧
      d.Leads left there [name] left (there ++ [name]) := by
  obtain ⟨beyond, mode, hfind⟩ := hneed
  have hnames : ∀ n ∈ (name :: kept).reverse, Path.IsName n := fun n hm =>
    List.forall_mem_cons.mpr ⟨hname, hk⟩ n (List.mem_reverse.mp hm)
  obtain ⟨-, hwalk⟩ := walk_of_find_path hnames hfind
  rw [List.reverse_cons] at hwalk
  obtain ⟨left, there, hl⟩ | hs := d.leads_or_stuck linkLimit [] kept.reverse
  · refine ⟨left, there, hl, ?_⟩
    rw [hl.walk_append false [name] (by simp)] at hwalk
    obtain ⟨e, he⟩ | hfree | ⟨item, hitem, hgo⟩ | ⟨target, hlink⟩ := hl.holds.walk_name_cases hname left
    · rw [he] at hwalk
      cases hwalk
    · rw [hfree] at hwalk
      cases hwalk
    · rw [hgo, walk.eq_def, hitem] at hwalk
      cases hwalk
      exact ⟨⟨mode, hitem⟩, fun follow rest _ => hgo follow rest⟩
    · rw [hlink] at hwalk
      cases hwalk
  · have hall := hs false [name] (by simp)
    rw [hwalk] at hall
    exact absurd hall.1 (by simp)

/-- A directory that names lead to is right behind them, or behind a link. -/
theorem Leads.directory_or_link (hk : ∀ name ∈ kept, Path.IsName name) {left : Nat} {there : Place}
    (hl : d.Leads linkLimit [] kept.reverse left there) :
    (∃ place mode, d.walk false linkLimit [] kept.reverse = .ok (.item place (.directory mode))) ∨
      ∃ place target, d.walk false linkLimit [] kept.reverse = .ok (.item place (.link target)) := by
  obtain ⟨mode, hd⟩ := hl.holds.walk_nil true left
  rw [← hl.walk_append true [] fun _ => rfl, List.append_nil] at hd
  cases kept with
  | nil =>
    have hsame : d.walk false linkLimit [] [] = d.walk true linkLimit [] [] := by
      rw [walk.eq_def, walk.eq_def]
      cases d.item? [] <;> rfl
    exact .inl ⟨there, mode, hsame.trans hd⟩
  | cons name kept =>
    obtain ⟨hname, hkept⟩ := List.forall_mem_cons.mp hk
    rw [List.reverse_cons] at hl hd ⊢
    obtain ⟨other, above, ha⟩ | hs := d.leads_or_stuck linkLimit [] kept.reverse
    · rw [ha.walk_append true [name] (by simp)] at hd
      rw [ha.walk_append false [name] (by simp)]
      obtain ⟨e, he⟩ | hfree | ⟨item, hitem, hgo⟩ | ⟨target, hlink⟩ :=
        ha.holds.walk_name_cases hname other
      · rw [he] at hd
        cases hd
      · rw [hfree] at hd
        cases hd
      · rw [hgo, walk.eq_def, hitem] at hd ⊢
        exact .inl ⟨there, mode, hd⟩
      · exact .inr ⟨_, target, hlink⟩
    · exact absurd (hs.append [name]) hl.not_stuck

/-- Behind a part that is no name, and that finds what it needs, is the directory of the names that are
left then. -/
theorem Joined.leads_concat (hk : ∀ name ∈ kept, Path.IsName name)
    (hj : d.Joined parts kept.reverse) (hpart : (part = [] ∨ part = ".") ∨ part = "..")
    (hneed : ∀ need ∈ Path.need kept part, d.Meets need) :
    ∃ left there, d.Leads linkLimit [] (parts ++ [part]) left there ∧
      d.Leads linkLimit [] (Path.place true kept part).reverse left there := by
  have hnames : ∀ name ∈ kept.reverse, Path.IsName name := fun name hm =>
    hk name (List.mem_reverse.mp hm)
  obtain hpart | rfl := hpart
  · -- The need says that the names are not stuck.
    rw [Path.need_none hpart, List.forall_mem_singleton] at hneed
    obtain ⟨there, mode, hfind⟩ := hneed
    obtain ⟨-, hwalk⟩ := walk_of_find_path hnames hfind
    rw [Path.place_none hpart]
    obtain ⟨left, there, hl, hl'⟩ | ⟨-, hs⟩ := hj
    · exact ⟨left, there, hl.trans ⟨hl.holds, fun _ rest _ => hl.holds.walk_none hpart rest⟩, hl'⟩
    · have hall := hs true [] fun _ => rfl
      rw [List.append_nil, hwalk] at hall
      exact absurd hall.2 (by simp [Item.isDirectory])
  · rw [Path.need_parent, List.forall_mem_singleton] at hneed
    rw [Path.place_parent hk]
    -- The names in front of the last one lead to the directory above.
    obtain ⟨left, there, above, hl, hup⟩ : ∃ left there above,
        d.Leads linkLimit [] kept.reverse left there ∧
        d.Leads linkLimit [] kept.tail.reverse left above ∧ there.dropLast = above := by
      cases kept with
      | nil =>
        obtain ⟨there, mode, hfind⟩ := hneed
        obtain ⟨hroot, -⟩ := walk_of_find_path hnames hfind
        exact ⟨linkLimit, [], [], .refl hroot _, .refl hroot _, rfl⟩
      | cons name kept =>
        obtain ⟨hname, hkept⟩ := List.forall_mem_cons.mp hk
        obtain ⟨left, above, hl, hn⟩ := exists_leads_name hkept hname hneed
        refine ⟨left, above ++ [name], above, ?_, hl, List.dropLast_concat⟩
        rw [List.reverse_cons]
        exact hl.trans hn
    obtain ⟨other, place, hp, hp'⟩ | ⟨-, hs⟩ := hj
    · refine ⟨left, above, ⟨hup.1.holds, fun follow rest hrest => ?_⟩, hup.1⟩
      calc d.walk follow linkLimit [] (parts ++ [(".." : Bytes)] ++ rest)
          = d.walk follow other place (".." :: rest) := by
            rw [List.append_assoc]
            exact hp.walk_append follow (_ :: rest) (by simp)
        _ = d.walk follow linkLimit [] (kept.reverse ++ (".." : Bytes) :: rest) :=
            (hp'.walk_append follow (_ :: rest) (by simp)).symm
        _ = d.walk follow left there (".." :: rest) := hl.walk_append follow (_ :: rest) (by simp)
        _ = d.walk follow left above rest := by rw [hl.holds.walk_parent, hup.2]
    · exact absurd hs hl.not_stuck

/-- Parts that find what they need lead where their names lead. -/
theorem joined_follow (hroot : d.Holds []) (hp : ∀ part ∈ parts, 47 ∉ part)
    (hneed : ∀ need ∈ Path.needs [] parts, d.Meets need) :
    d.Joined parts (Path.follow [] parts).reverse := by
  induction parts using List.reverseRecOn with
  | nil => exact .inl ⟨linkLimit, [], .refl hroot _, .refl hroot _⟩
  | append_singleton parts part ih =>
    rw [Path.needs_concat, List.forall_mem_append] at hneed
    rw [List.forall_mem_append, List.forall_mem_singleton] at hp
    have hk : ∀ name ∈ Path.follow [] parts, Path.IsName name := Path.isName_follow (by simp) hp.1
    have hj := ih hp.1 hneed.1
    rw [Path.follow_concat]
    obtain hnone | hrest := Path.part_cases hp.2
    · obtain ⟨left, there, h⟩ := hj.leads_concat hk (.inl hnone) hneed.2
      exact .inl ⟨left, there, h⟩
    obtain hparent | hname := hrest
    · obtain ⟨left, there, h⟩ := hj.leads_concat hk (.inr hparent) hneed.2
      exact .inl ⟨left, there, h⟩
    · rw [Path.place_name hname, List.reverse_cons]
      exact hj.append [part]

end

/-! ### Paths and their clean forms -/

/-- Two answers are the same, or both are refusals. -/
def Agree {α : Type} (a b : Except PathError α) : Prop :=
  a = b ∨ (∃ e, a = .error e) ∧ ∃ e, b = .error e

theorem Agree.symm {α : Type} {a b : Except PathError α} (h : Agree a b) : Agree b a :=
  h.imp Eq.symm And.symm

/-- The system takes the text of a path, and every part that is no name finds what it needs. -/
structure Passes (d : Disk) (path : Bytes) : Prop where
  takes : Takes path
  meets : ∀ need ∈ Path.needs [] (Bytes.splitOn 47 path), d.Meets need

/-- No parent reference in a path goes back from behind a link. -/
def Unlinked (d : Disk) (path : Bytes) : Prop :=
  ∀ place, ⟨false, place⟩ ∈ Path.needs [] (Bytes.splitOn 47 path) →
    ∀ there target, d.find false [] place.path ≠ .ok (.item there (.link target))

theorem Takes.path {path : Bytes} {place : Place} (h : Takes path)
    (habs : Path.isAbsolute path = true) (hn : ∀ name ∈ place, Path.IsName name)
    (hs : place.Sublist (Bytes.splitOn 47 path)) : Takes place.path := by
  have hsub := Path.path_sublist habs hn hs
  exact ⟨fun h0 => h.1 (hsub.subset h0), List.cons_ne_nil _ _, hsub.length_le.trans h.2.2⟩

section
variable {path : Bytes} (habs : Path.isAbsolute path = true)
include habs

theorem Passes.holds_root (h : d.Passes path) : d.Holds [] := by
  obtain ⟨s, rfl⟩ := Path.isAbsolute_iff.mp habs
  have hmeets := h.meets
  rw [Bytes.splitOn_cons_sep, Path.needs] at hmeets
  obtain ⟨there, mode, hfind⟩ := hmeets ⟨true, []⟩ List.mem_cons_self
  exact (walk_of_find_path (by simp) hfind).1

/-- A path whose parts find what they need and its clean form lead to one directory, or they end in a
name and lead to the same or to nothing. -/
theorem Passes.find_clean (h : d.Passes path) :
    (∃ there mode, d.find true [] path = .ok (.item there (.directory mode)) ∧
      d.find true [] (Path.clean path) = .ok (.item there (.directory mode))) ∨
    (¬ Bytes.endsWith path "/" = true ∧ ¬ Bytes.endsWith (Path.clean path) "/" = true ∧
      Agree (d.find true [] path) (d.find true [] (Path.clean path))) := by
  have hroot := h.holds_root habs
  have hclean : d.find true [] (Path.clean path) = d.walk true linkLimit [] (Path.names path) := by
    rw [Path.clean_eq_path habs]
    exact find_path (fun _ => Path.isName_of_mem_names)
      (h.takes.path habs (fun _ => Path.isName_of_mem_names) (Path.sublist_names path)) hroot true
  rw [hclean, find_of_takes h.takes habs]
  obtain ⟨above, last, rfl, hlast⟩ := Path.exists_last habs
  have hmeets := h.meets
  rw [Bytes.splitOn_append, Bytes.splitOn_of_not_mem hlast, Path.needs_concat,
    List.forall_mem_append] at hmeets
  have hparts : ∀ part ∈ Bytes.splitOn 47 above, 47 ∉ part :=
    fun _ => Bytes.not_mem_of_mem_splitOn
  have hj := joined_follow hroot hparts hmeets.1
  have hk : ∀ name ∈ Path.follow [] (Bytes.splitOn 47 above), Path.IsName name :=
    Path.isName_follow (by simp) hparts
  have hnames : Path.names (above ++ 47 :: last) =
      (Path.place true (Path.follow [] (Bytes.splitOn 47 above)) last).reverse := by
    rw [Path.names, Bytes.splitOn_append, Bytes.splitOn_of_not_mem hlast, Path.follow_concat]
  rw [hnames, Bytes.splitOn_append, Bytes.splitOn_of_not_mem hlast]
  by_cases hname : Path.IsName last
  · right
    have hpath : ∃ front, Path.clean (above ++ 47 :: last) = front ++ 47 :: last := by
      rw [Path.clean_eq_path habs, Path.names_append_name _ hname]
      exact Path.path_concat _ last
    obtain ⟨front, hfront⟩ := hpath
    refine ⟨mt (Path.endsWith_slash hlast).mp hname.ne_nil, ?_, ?_⟩
    · rw [hfront]
      exact mt (Path.endsWith_slash hlast).mp hname.ne_nil
    rw [Path.place_name hname, List.reverse_cons]
    obtain ⟨left, there, hl, hl'⟩ | ⟨hs, hs'⟩ := hj
    · exact .inl ((hl.walk_append true [last] (by simp)).trans
        (hl'.walk_append true [last] (by simp)).symm)
    · exact .inr ⟨hs.error_of_name hname, hs'.error_of_name hname⟩
  · left
    have hpart := Path.part_cases hlast
    obtain ⟨left, there, hl, hl'⟩ := hj.leads_concat hk
      (hpart.imp_right fun h => h.resolve_right hname) hmeets.2
    obtain ⟨mode, hd⟩ := hl.holds.walk_nil true left
    refine ⟨there, mode, ?_, ?_⟩
    · rw [← hd, ← hl.walk_append true [] fun _ => rfl, List.append_nil]
    · rw [← hd, ← hl'.walk_append true [] fun _ => rfl, List.append_nil]

/-- A path that leads to something, or that can be written to, has parts that find what they need,
unless one of them goes back from behind a link. -/
theorem passes_of_find (hu : d.Unlinked path) {found : Found} (h : d.find true [] path = .ok found)
    (hend : (∃ there item, found = .item there item) ∨ ¬ Bytes.endsWith path "/" = true) :
    d.Passes path := by
  have htakes := (find_eq_ok_iff.mp h).1
  rw [find_of_takes htakes habs] at h
  have hroot : d.Holds [] := by
    obtain ⟨s, rfl⟩ := Path.isAbsolute_iff.mp habs
    rw [Bytes.splitOn_cons_sep] at h
    exact holds_of_walk_cons h
  -- What comes last is not stuck at nothing.
  have hgoes {front : List Bytes} {part : Bytes} {rest : List Bytes}
      (hsplit : Bytes.splitOn 47 path = front ++ part :: rest) : ¬ d.Stuck linkLimit [] front := by
    intro hs
    have hall := hs true (part :: rest) (by simp)
    rw [← hsplit, h] at hall
    cases found with
    | item there item => exact absurd hall.1 (by simp)
    | free there =>
      obtain ⟨there, item, hitem⟩ | hslash := hend
      · cases hitem
      obtain ⟨above, last, rfl, hlast⟩ := Path.exists_last habs
      have hmem : last ∈ part :: rest := by
        rw [Bytes.splitOn_append, Bytes.splitOn_of_not_mem hlast] at hsplit
        have hends := congrArg List.getLast? hsplit
        rw [List.getLast?_concat, List.getLast?_append, List.getLast?_cons, Option.some_or] at hends
        exact List.mem_of_getLast? (List.getLast?_cons.trans hends.symm)
      exact hslash ((Path.endsWith_slash hlast).mpr (List.isEmpty_iff.mp (List.all_eq_true.mp hall _ hmem)))
  suffices hfronts : ∀ front rest, Bytes.splitOn 47 path = front ++ rest →
      ∀ need ∈ Path.needs [] front, d.Meets need from
    ⟨htakes, hfronts _ [] (List.append_nil _).symm⟩
  intro front
  induction front using List.reverseRecOn with
  | nil => simp [Path.needs]
  | append_singleton front part ih =>
    intro rest hsplit
    rw [List.append_assoc, List.singleton_append] at hsplit
    have hmeets := ih _ hsplit
    have hslash : ∀ part ∈ Bytes.splitOn 47 path, 47 ∉ part := fun _ => Bytes.not_mem_of_mem_splitOn
    rw [hsplit, List.forall_mem_append, List.forall_mem_cons] at hslash
    have hk : ∀ name ∈ Path.follow [] front, Path.IsName name := Path.isName_follow (by simp) hslash.1
    have hnames : ∀ name ∈ (Path.follow [] front).reverse, Path.IsName name := fun name hm =>
      hk name (List.mem_reverse.mp hm)
    have hfind : ∀ follow, d.find follow [] (Place.path (Path.follow [] front).reverse) =
        d.walk follow linkLimit [] (Path.follow [] front).reverse := by
      refine find_path hnames (htakes.path habs hnames ?_) hroot
      rw [hsplit]
      exact (Path.sublist_follow (by simp) hslash.1).trans (List.sublist_append_left ..)
    obtain ⟨left, there, -, hl⟩ := (joined_follow hroot hslash.1 hmeets).resolve_right
      fun hs => hgoes hsplit hs.1
    rw [Path.needs_concat, List.forall_mem_append]
    refine ⟨hmeets, ?_⟩
    obtain hnone | rfl | hname := Path.part_cases hslash.2.1
    · rw [Path.need_none hnone, List.forall_mem_singleton, Meets, hfind]
      obtain ⟨mode, hd⟩ := hl.holds.walk_nil true left
      exact ⟨there, mode, by rw [← hd, ← hl.walk_append true [] fun _ => rfl, List.append_nil]⟩
    · rw [Path.need_parent, List.forall_mem_singleton, Meets, hfind]
      obtain hdirectory | ⟨place, target, hlink⟩ := hl.directory_or_link hk
      · exact hdirectory
      · refine absurd ((hfind false).trans hlink) (hu _ ?_ place target)
        rw [hsplit, Path.needs_append, Path.needs]
        exact List.mem_append_right _ (List.mem_append_left _ List.mem_cons_self)
    · rw [Path.need_name hname]
      simp

end

/-! ### What paths are good for -/

section
variable {path other : Bytes} {access : Access}

/-- What a path with a slash at its end leads to cannot be written. -/
theorem openPath_slash (hw : access ≠ .read) (h : Bytes.endsWith path "/" = true) :
    ∃ e, d.openPath access [] path = .error e := by
  cases access with
  | read => exact absurd rfl hw
  | replace mode | extend mode =>
    simp only [openPath, h, if_true]
    split <;> exact ⟨_, rfl⟩

/-- Opens what is where a path leads. -/
def openFound (d : Disk) (access : Access) : Found → Except PathError (Stream × Disk)
  | .item _ item => d.openItem access item
  | .free place =>
    match access with
    | .read => .error .missing
    | .replace mode | .extend mode => .ok (d.openNew mode place)

/-- Any other path opens as where it leads. -/
theorem openPath_eq (h : access = .read ∨ ¬ Bytes.endsWith path "/" = true) :
    d.openPath access [] path = (d.find true [] path).bind (d.openFound access) := by
  cases access with
  | read =>
    rw [openPath, stat]
    rcases d.find true [] path with e | ⟨there, item⟩ | there <;> rfl
  | replace mode | extend mode =>
    simp only [openPath]
    rw [if_neg (h.resolve_left (by simp))]
    rcases d.find true [] path with e | ⟨there, item⟩ | there <;> rfl

theorem openPath_congr (h : Agree (d.find true [] path) (d.find true [] other))
    (hslash : access = .read ∨
      ¬ Bytes.endsWith path "/" = true ∧ ¬ Bytes.endsWith other "/" = true) :
    Agree (d.openPath access [] path) (d.openPath access [] other) := by
  rw [openPath_eq (hslash.imp_right And.left), openPath_eq (hslash.imp_right And.right)]
  obtain hfind | ⟨⟨e, hfind⟩, e', hfind'⟩ := h
  · exact .inl (by rw [hfind])
  · exact .inr ⟨⟨e, by rw [hfind]; rfl⟩, e', by rw [hfind']; rfl⟩

/-- A directory cannot be written either. -/
theorem openPath_directory {there : Place} {mode : Nat}
    (h : d.find true [] path = .ok (.item there (.directory mode)))
    (hw : access ≠ .read) : ∃ e, d.openPath access [] path = .error e := by
  by_cases hslash : Bytes.endsWith path "/" = true
  · exact openPath_slash hw hslash
  · rw [openPath_eq (.inr hslash), h]
    cases access with
    | read => exact absurd rfl hw
    | replace mode | extend mode => exact ⟨.isDirectory, rfl⟩

section
variable (habs : Path.isAbsolute path = true)
include habs

/-- A path whose parts find what they need opens as its clean form does. -/
theorem Passes.openPath_clean (h : d.Passes path) (access : Access) :
    Agree (d.openPath access [] path) (d.openPath access [] (Path.clean path)) := by
  obtain ⟨there, mode, hfind, hfind'⟩ | ⟨hslash, hslash', hfind⟩ := h.find_clean habs
  · by_cases hw : access = .read
    · exact openPath_congr (.inl (hfind.trans hfind'.symm)) (.inl hw)
    · exact .inr ⟨openPath_directory hfind hw, openPath_directory hfind' hw⟩
  · exact openPath_congr hfind (.inr ⟨hslash, hslash'⟩)

/-- A path that can be opened has parts that find what they need. -/
theorem passes_of_openPath (hu : d.Unlinked path) {opened : Stream × Disk}
    (h : d.openPath access [] path = .ok opened) : d.Passes path := by
  have hend : access = .read ∨ ¬ Bytes.endsWith path "/" = true := by
    by_cases hw : access = .read
    · exact .inl hw
    · refine .inr fun hslash => ?_
      obtain ⟨e, he⟩ : ∃ e, d.openPath access [] path = .error e := openPath_slash hw hslash
      rw [he] at h
      cases h
  rw [openPath_eq hend] at h
  cases hfind : d.find true [] path with
  | error e =>
    rw [hfind] at h
    cases h
  | ok found =>
    refine passes_of_find habs hu hfind ?_
    cases found with
    | item there item => exact .inl ⟨there, item, rfl⟩
    | free there =>
      refine .inr (hend.resolve_left ?_)
      rintro rfl
      rw [hfind] at h
      cases h

/-- A path whose parts find what they need is a directory's if its clean form is. -/
theorem Passes.stat_clean (h : d.Passes path) {there : Place} {mode : Nat} :
    d.stat [] path = .ok (there, .directory mode) ↔
      d.stat [] (Path.clean path) = .ok (there, .directory mode) := by
  rw [stat_eq_ok_iff, stat_eq_ok_iff]
  obtain ⟨other, mode', hfind, hfind'⟩ | ⟨-, -, hfind | ⟨⟨e, hfind⟩, e', hfind'⟩⟩ :=
    h.find_clean habs
  · rw [hfind, hfind']
  · rw [hfind]
  · rw [hfind, hfind']
    simp

theorem passes_of_stat (hu : d.Unlinked path) {there : Place} {item : Item}
    (h : d.stat [] path = .ok (there, item)) : d.Passes path :=
  passes_of_find habs hu (stat_eq_ok_iff.mp h) (.inl ⟨there, item, rfl⟩)

end

end

end Disk

end CommandShell
