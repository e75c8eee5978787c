import CommandShell.ChangeDirectory
import CommandShell.Launch
import CommandShell.Search

/-! Contents that no name leads to. Where paths lead is a matter of names alone, so nothing that is done
by path can find out, or change, what a nameless content holds. -/
namespace CommandShell

namespace Disk
variable {d d' : Disk}

section Names
variable (h : d'.items = d.items)
include h

theorem item?_eq_of_items : d'.item? = d.item? := by
  funext place
  rw [item?, item?, h]

/-- A walk sees names only. -/
theorem walk_eq_of_items (follow : Bool) (links : Nat) (here : Place) (parts : List Bytes) :
    d'.walk follow links here parts = d.walk follow links here parts := by
  have hitem := item?_eq_of_items h
  fun_induction d.walk follow links here parts <;> rw [walk.eq_def] <;>
    simp_all +zetaDelta [Nat.not_lt_of_le]
  assumption

theorem find_eq_of_items (follow : Bool) (cwd : Place) (path : Bytes) :
    d'.find follow cwd path = d.find follow cwd path := by
  simp only [find, walk_eq_of_items h]

theorem stat_eq_of_items (cwd : Place) (path : Bytes) : d'.stat cwd path = d.stat cwd path := by
  simp only [stat, find_eq_of_items h]

theorem parent_eq_of_items (cwd : Place) (path : Bytes) :
    d'.parent cwd path = d.parent cwd path := by
  simp only [parent, find_eq_of_items h, walk_eq_of_items h]

end Names

theorem item?_mem {place : Place} {item : Item} (h : d.item? place = some item) :
    (place, item) ∈ d.items := by
  obtain ⟨entry, hfind, rfl⟩ := Option.map_eq_some_iff.mp h
  obtain rfl : entry.1 = place := by simpa using List.find?_some hfind
  exact List.mem_of_find?_eq_some hfind

theorem walk_item_mem {follow : Bool} {links : Nat} {here place : Place} {parts : List Bytes}
    {item : Item} (h : d.walk follow links here parts = .ok (.item place item)) :
    (place, item) ∈ d.items := by
  fun_induction d.walk follow links here parts <;> simp_all [item?_mem]

/-- What a path leads to has a name. -/
theorem find_item_mem {follow : Bool} {cwd place : Place} {path : Bytes} {item : Item}
    (h : d.find follow cwd path = .ok (.item place item)) : (place, item) ∈ d.items := by
  unfold find at h
  split at h
  · cases h
  · split at h
    · cases h
    · split at h
      · cases h
      · exact walk_item_mem h

theorem stat_mem {cwd place : Place} {path : Bytes} {item : Item}
    (h : d.stat cwd path = .ok (place, item)) : (place, item) ∈ d.items := by
  unfold stat at h
  split at h
  · cases h
  · next hf =>
    cases h
    exact find_item_mem hf
  · cases h

/-- A content that is stored and that no name leads to. -/
structure Nameless (d : Disk) (id : Nat) : Prop where
  stored : id < d.contents.length
  unnamed : ∀ entry ∈ d.items, ∀ mode, entry.2 ≠ .file mode id

section SetContent
variable (d : Disk) {id id' : Nat} (data : Bytes)

/-! Changing a content changes no name. -/

theorem items_setContent : (d.setContent id data).items = d.items := rfl

@[simp] theorem item?_setContent : (d.setContent id data).item? = d.item? :=
  item?_eq_of_items (items_setContent d data)

@[simp] theorem find_setContent (follow : Bool) (cwd : Place) (path : Bytes) :
    (d.setContent id data).find follow cwd path = d.find follow cwd path :=
  find_eq_of_items (items_setContent d data) follow cwd path

@[simp] theorem stat_setContent (cwd : Place) (path : Bytes) :
    (d.setContent id data).stat cwd path = d.stat cwd path :=
  stat_eq_of_items (items_setContent d data) cwd path

@[simp] theorem parent_setContent (cwd : Place) (path : Bytes) :
    (d.setContent id data).parent cwd path = d.parent cwd path :=
  parent_eq_of_items (items_setContent d data) cwd path

@[simp] theorem below_setContent (place : Place) :
    (d.setContent id data).below place = d.below place := rfl

theorem makeDirectory_setContent (mode : Nat) (cwd : Place) (path : Bytes) :
    (d.setContent id data).makeDirectory mode cwd path =
      (d.makeDirectory mode cwd path).map (·.setContent id data) := by
  simp only [makeDirectory, find_setContent]
  split <;> rfl

theorem remove_setContent (cwd : Place) (path : Bytes) :
    (d.setContent id data).remove cwd path = (d.remove cwd path).map (·.setContent id data) := by
  simp only [remove, parent_setContent, item?_setContent, below_setContent]
  split
  · rfl
  · next dir name _ =>
    split
    · rfl
    · split
      · rfl
      · by_cases hb : (d.below (dir ++ [name])).isEmpty = true
        · simp only [hb, if_true]
          rfl
        · simp only [hb]
          rfl
      · split <;> rfl

theorem content_setContent_of_ne (h : id' ≠ id) :
    (d.setContent id data).content id' = d.content id' := by
  simp [content, setContent, List.getElem?_set_ne h.symm]

theorem setContent_comm (h : id' ≠ id) (other : Bytes) :
    (d.setContent id data).setContent id' other = (d.setContent id' other).setContent id data := by
  simp [setContent, List.set_comm _ _ h.symm]

end SetContent

namespace Nameless
variable {id : Nat} (h : d.Nameless id)
include h

/-! What is done by path is the same whatever the content holds. -/

theorem ne_of_mem {entry : Place × Item} (hm : entry ∈ d.items) {mode other : Nat}
    (he : entry.2 = .file mode other) : other ≠ id := by
  rintro rfl
  exact h.unnamed entry hm mode he

variable (data : Bytes)

theorem readFile_setContent (cwd : Place) (path : Bytes) :
    (d.setContent id data).readFile cwd path = d.readFile cwd path := by
  simp only [readFile, stat_setContent]
  split
  · rfl
  · next place mode other hstat =>
    rw [content_setContent_of_ne d data (h.ne_of_mem (stat_mem hstat) rfl)]
  · rfl
  · rfl

theorem openItem_setContent (access : Access) {entry : Place × Item} (hm : entry ∈ d.items) :
    (d.setContent id data).openItem access entry.2 =
      (d.openItem access entry.2).map fun opened => (opened.1, opened.2.setContent id data) := by
  cases he : entry.2 with
  | directory mode =>
    simp only [openItem]
    split <;> rfl
  | file mode other =>
    cases access with
    | replace mode => simp [openItem, Except.map, setContent_comm d data (h.ne_of_mem hm he)]
    | read | extend mode => rfl
  | link target => rfl
  | null => rfl

theorem openNew_setContent (mode : Nat) (place : Place) :
    (d.setContent id data).openNew mode place =
      ((d.openNew mode place).1, (d.openNew mode place).2.setContent id data) := by
  have hs := h.stored
  simp [openNew, putFile, addContent, put, erase, setContent, List.set_append_left, hs]

/-- A path is opened in the same way, or refused for the same reason. -/
theorem openPath_setContent (access : Access) (cwd : Place) (path : Bytes) :
    (d.setContent id data).openPath access cwd path =
      (d.openPath access cwd path).map fun opened => (opened.1, opened.2.setContent id data) := by
  cases access with
  | read =>
    simp only [openPath, stat_setContent]
    split
    · rfl
    · next hstat => exact h.openItem_setContent data .read (stat_mem hstat)
  | replace mode | extend mode =>
    simp only [openPath, find_setContent, parent_setContent]
    split
    · split <;> rfl
    · split
      · rfl
      · next hfind => exact h.openItem_setContent data _ (find_item_mem hfind)
      · rw [h.openNew_setContent data]
        rfl

/-! Nothing that is done by path gives the content a name. -/

theorem setContent (other : Nat) : (d.setContent other data).Nameless id where
  stored := by
    have hs := h.stored
    simpa [Disk.setContent] using hs
  unnamed := h.unnamed

omit data in
theorem erase (place : Place) : (d.erase place).Nameless id where
  stored := h.stored
  unnamed entry hm := h.unnamed entry ((List.mem_filter.mp hm).1)

omit data in
theorem put (place : Place) {item : Item} (hi : ∀ mode, item ≠ .file mode id) :
    (d.put place item).Nameless id where
  stored := h.stored
  unnamed entry hm mode := by
    rcases List.mem_cons.mp hm with rfl | hm
    · exact hi mode
    · exact (h.erase place).unnamed entry hm mode

theorem putFile (place : Place) (mode : Nat) : (d.putFile place mode data).Nameless id := by
  have hs := h.stored
  have hadd : Nameless { d with contents := d.contents ++ [data] } id :=
    ⟨by simp only [List.length_append]; omega, h.unnamed⟩
  refine hadd.put place ?_
  rintro other ⟨⟩
  omega

omit data in
theorem makeDirectory {mode : Nat} {cwd : Place} {path : Bytes} {d' : Disk}
    (hd : d.makeDirectory mode cwd path = .ok d') : d'.Nameless id := by
  unfold Disk.makeDirectory at hd
  split at hd
  · cases hd
  · cases hd
    exact h.put _ (by simp)
  · cases hd

omit data in
theorem remove {cwd : Place} {path : Bytes} {d' : Disk} (hd : d.remove cwd path = .ok d') :
    d'.Nameless id := by
  unfold Disk.remove at hd
  split at hd
  · cases hd
  · split at hd
    · cases hd
    · dsimp only at hd
      split at hd
      · cases hd
      · split at hd
        · cases hd
          exact h.erase _
        · cases hd
      · split at hd
        · cases hd
        · cases hd
          exact h.erase _

omit data in
/-- A file that is opened by its path keeps the content nameless and is not a way to it. -/
theorem openItem {access : Access} {entry : Place × Item} (hm : entry ∈ d.items) {stream : Stream}
    {d' : Disk} (hd : d.openItem access entry.2 = .ok (stream, d')) :
    d'.Nameless id ∧ stream ≠ .content id := by
  cases he : entry.2 with
  | directory mode =>
    simp only [he, Disk.openItem] at hd
    split at hd
    · cases hd
      exact ⟨h, by simp⟩
    · cases hd
  | file mode other =>
    have hne := h.ne_of_mem hm he
    simp only [he, Disk.openItem] at hd
    cases hd
    refine ⟨?_, by simpa using hne⟩
    split
    · exact h.setContent [] other
    · exact h
  | link target =>
    rw [he] at hd
    cases hd
  | null =>
    rw [he] at hd
    cases hd
    exact ⟨h, by simp⟩

omit data in
theorem openPath {access : Access} {cwd : Place} {path : Bytes} {stream : Stream} {d' : Disk}
    (hd : d.openPath access cwd path = .ok (stream, d')) :
    d'.Nameless id ∧ stream ≠ .content id := by
  cases access with
  | read =>
    simp only [Disk.openPath] at hd
    split at hd
    · cases hd
    · next hstat => exact h.openItem (stat_mem hstat) hd
  | replace mode | extend mode =>
    simp only [Disk.openPath] at hd
    split at hd
    · split at hd <;> cases hd
    · split at hd
      · cases hd
      · next hfind => exact h.openItem (find_item_mem hfind) hd
      · cases hd
        have hs := h.stored
        refine ⟨h.putFile [] _ mode, ?_⟩
        simp only [ne_eq, Stream.content.injEq]
        omega

end Nameless

/-- What was nameless has not got a name. -/
structure KeepsNameless (d d' : Disk) : Prop where
  nameless : ∀ id, d.Nameless id → d'.Nameless id

namespace KeepsNameless

theorem refl (d : Disk) : d.KeepsNameless d := ⟨fun _ h => h⟩

theorem trans {a b c : Disk} (h : a.KeepsNameless b) (h' : b.KeepsNameless c) : a.KeepsNameless c :=
  ⟨fun id hid => h'.nameless id (h.nameless id hid)⟩

theorem setContent (d : Disk) (id : Nat) (data : Bytes) : d.KeepsNameless (d.setContent id data) :=
  ⟨fun _ h => h.setContent data id⟩

end KeepsNameless

end Disk

/-! Programs are found, started and left in the same way too. -/

section Running
variable {d : Disk} {id : Nat} (data : Bytes)

theorem Search.lookup_setContent (d : Disk) (env : Environment) (dir name : Bytes) :
    Search.lookup (d.setContent id data) env dir name = Search.lookup d env dir name := by
  have hc : Search.check (d.setContent id data) = Search.check d := by
    funext path
    simp only [check, Disk.stat_setContent]
  rw [lookup, lookup, hc]

theorem Launch.resolve_setContent (h : d.Nameless id) (dir : Place) (n : Nat) (path : Bytes)
    (argv : List Bytes) :
    Launch.resolve (d.setContent id data) dir n path argv = Launch.resolve d dir n path argv := by
  induction n generalizing path argv with
  | zero => rfl
  | succ n ih =>
    simp only [resolve, Disk.stat_setContent]
    split
    · rfl
    · next place mode other hstat =>
      rw [Disk.content_setContent_of_ne d data (h.ne_of_mem (Disk.stat_mem hstat) rfl)]
      simp only [ih]
    · rfl

theorem Launch.prepare_setContent (h : d.Nameless id) (dir path : Bytes) (argv env : List Bytes) :
    Launch.prepare (d.setContent id data) dir path argv env = Launch.prepare d dir path argv env := by
  simp only [prepare, Disk.stat_setContent, resolve_setContent data h]

theorem ChangeDirectory.run_setContent (d : Disk) (here : Surroundings) (args : List Bytes) :
    ChangeDirectory.run (d.setContent id data) here args = ChangeDirectory.run d here args := by
  simp only [run, Surroundings.enterHome, Surroundings.enter, Disk.stat_setContent]

end Running

end CommandShell
