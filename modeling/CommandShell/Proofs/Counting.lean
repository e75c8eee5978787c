import CommandShell.Counter
import CommandShell.Proofs.EnvironmentCopy

/-! Counting adds one to a single count, and a counter is known by its counts. Listed in any order, its
rows are shown in one. -/
namespace CommandShell

namespace Counter

theorem increment_cons (k key : Bytes) (n : Nat) (rest : List (Bytes × Nat)) :
    increment ⟨(k, n) :: rest⟩ key =
      ⟨if k = key then (k, n + 1) :: rest
        else if Bytes.le key k then (key, 1) :: (k, n) :: rest
        else (k, n) :: (increment ⟨rest⟩ key).counts⟩ := rfl

theorem total_increment (c : Counter) (key : Bytes) : (c.increment key).total = c.total + 1 := by
  obtain ⟨counts⟩ := c
  induction counts with
  | nil => rfl
  | cons entry rest ih =>
    obtain ⟨k, n⟩ := entry
    rw [increment_cons]
    split
    · simp only [total, List.foldr_cons]
      omega
    · split
      · simp only [total, List.foldr_cons]
        omega
      · simp only [total, List.foldr_cons] at ih ⊢
        omega

/-- Texts come in rising order, and only those that were seen. -/
structure Ordered (c : Counter) : Prop where
  rising : c.counts.Pairwise fun a b => a.1 < b.1
  seen : ∀ entry ∈ c.counts, 0 < entry.2

theorem ordered_empty : Ordered {} := ⟨.nil, List.forall_mem_nil _⟩

section
variable {k key : Bytes} {n : Nat} {rest : List (Bytes × Nat)}

theorem ordered_cons : Ordered ⟨(k, n) :: rest⟩ ↔
    (∀ entry ∈ rest, k < entry.1) ∧ 0 < n ∧ Ordered ⟨rest⟩ := by
  constructor
  · rintro ⟨hr, hs⟩
    obtain ⟨hk, hr⟩ := List.pairwise_cons.mp hr
    obtain ⟨hn, hs⟩ := List.forall_mem_cons.mp hs
    exact ⟨hk, hn, hr, hs⟩
  · rintro ⟨hk, hn, hr, hs⟩
    exact ⟨List.pairwise_cons.mpr ⟨hk, hr⟩, List.forall_mem_cons.mpr ⟨hn, hs⟩⟩

theorem lt_of_not_le (hle : ¬ Bytes.le key k = true) : k < key := by
  rw [Bytes.le_iff] at hle
  exact List.not_le.mp hle

theorem lt_of_le (hne : k ≠ key) (hle : Bytes.le key k = true) : key < k :=
  Std.lt_of_le_of_ne ((Bytes.le_iff key k).mp hle) hne.symm

/-- Nothing but the text itself is added. -/
theorem mem_increment {c : Counter} {entry : Bytes × Nat} (h : entry ∈ (c.increment key).counts) :
    entry.1 = key ∨ ∃ old ∈ c.counts, old.1 = entry.1 := by
  obtain ⟨counts⟩ := c
  induction counts with
  | nil => exact .inl (congrArg Prod.fst (List.mem_singleton.mp h))
  | cons first rest ih =>
    obtain ⟨k, n⟩ := first
    rw [increment_cons] at h
    split at h
    · rcases List.mem_cons.mp h with rfl | h
      · exact .inl ‹_›
      · exact .inr ⟨entry, List.mem_cons_of_mem _ h, rfl⟩
    · split at h
      · rcases List.mem_cons.mp h with rfl | h
        · exact .inl rfl
        · exact .inr ⟨entry, h, rfl⟩
      · rcases List.mem_cons.mp h with rfl | h
        · exact .inr ⟨(k, n), List.mem_cons_self, rfl⟩
        · rcases ih h with he | ⟨old, hm, he⟩
          · exact .inl he
          · exact .inr ⟨old, List.mem_cons_of_mem _ hm, he⟩

theorem Ordered.increment {c : Counter} (h : c.Ordered) (key : Bytes) : (c.increment key).Ordered := by
  obtain ⟨counts⟩ := c
  induction counts with
  | nil => exact ordered_cons.mpr ⟨List.forall_mem_nil _, Nat.one_pos, ordered_empty⟩
  | cons first rest ih =>
    obtain ⟨k, n⟩ := first
    obtain ⟨hk, hn, hrest⟩ := ordered_cons.mp h
    rw [increment_cons]
    split
    · exact ordered_cons.mpr ⟨hk, Nat.succ_pos n, hrest⟩
    · next hne =>
      split
      · next hle =>
        have hlt : key < k := lt_of_le hne hle
        refine ordered_cons.mpr ⟨List.forall_mem_cons.mpr ⟨hlt, ?_⟩, Nat.one_pos, h⟩
        intro entry hm
        exact List.lt_trans hlt (hk entry hm)
      · next hle =>
        refine ordered_cons.mpr ⟨fun entry hm => ?_, hn, ih hrest⟩
        rcases mem_increment hm with he | ⟨old, hold, he⟩
        · rw [he]
          exact lt_of_not_le hle
        · rw [← he]
          exact hk old hold

/-! Counts. -/

@[simp] theorem get_nil (key : Bytes) : get {} key = 0 := rfl

theorem get_cons : get ⟨(k, n) :: rest⟩ key = if k = key then n else get ⟨rest⟩ key := by
  unfold get
  rw [List.find?_cons]
  by_cases hk : k = key
  · simp [hk]
  · rw [if_neg hk, beq_eq_false_iff_ne.mpr hk]

theorem get_eq_zero (h : ∀ entry ∈ rest, key < entry.1) : get ⟨rest⟩ key = 0 := by
  induction rest with
  | nil => rfl
  | cons first rest ih =>
    obtain ⟨hlt, hrest⟩ := List.forall_mem_cons.mp h
    rw [get_cons, if_neg, ih hrest]
    intro he
    rw [he] at hlt
    exact List.lt_irrefl _ hlt

theorem get_of_mem {c : Counter} (h : c.Ordered) {entry : Bytes × Nat} (hm : entry ∈ c.counts) :
    c.get entry.1 = entry.2 := by
  obtain ⟨counts⟩ := c
  induction counts with
  | nil => cases hm
  | cons first rest ih =>
    obtain ⟨k, n⟩ := first
    obtain ⟨hk, -, hrest⟩ := ordered_cons.mp h
    rw [get_cons]
    rcases List.mem_cons.mp hm with rfl | hm
    · exact if_pos rfl
    · rw [if_neg, ih hrest hm]
      intro he
      exact List.lt_irrefl entry.1 (he ▸ hk entry hm)

/-- Counting a text adds one to its count and nothing to any other. -/
theorem get_increment {c : Counter} (h : c.Ordered) (key k' : Bytes) :
    (c.increment key).get k' = c.get k' + if key = k' then 1 else 0 := by
  obtain ⟨counts⟩ := c
  induction counts with
  | nil => exact get_cons.trans (Nat.zero_add _).symm
  | cons first rest ih =>
    obtain ⟨k, n⟩ := first
    obtain ⟨hk, -, hrest⟩ := ordered_cons.mp h
    rw [increment_cons]
    split
    · next he =>
      subst he
      rw [get_cons, get_cons]
      split <;> rfl
    · next hne =>
      split
      · next hle =>
        have hlt : key < k := lt_of_le hne hle
        rw [get_cons]
        split
        · next he =>
          subst he
          have hall : ∀ entry ∈ (k, n) :: rest, key < entry.1 :=
            List.forall_mem_cons.mpr ⟨hlt, fun entry hm => List.lt_trans hlt (hk entry hm)⟩
          rw [get_eq_zero hall]
        · rfl
      · rw [get_cons, get_cons, ih hrest]
        split
        · next he =>
          subst he
          rw [if_neg (Ne.symm hne), Nat.add_zero]
        · rfl

end

/-- A counter is known by its counts. -/
theorem Ordered.ext {c c' : Counter} (h : c.Ordered) (h' : c'.Ordered)
    (hget : ∀ key, c.get key = c'.get key) : c = c' := by
  -- A first text that comes before all of the other counter is counted in one and not in the other.
  have absurd_of_lt {k : Bytes} {n : Nat} {rest other : List (Bytes × Nat)} (hn : 0 < n)
      (hlt : ∀ entry ∈ other, k < entry.1)
      (hget : get ⟨(k, n) :: rest⟩ k = get ⟨other⟩ k) : False := by
    rw [get_cons, if_pos rfl, get_eq_zero hlt] at hget
    omega
  obtain ⟨counts⟩ := c
  obtain ⟨counts'⟩ := c'
  induction counts generalizing counts' with
  | nil =>
    cases counts' with
    | nil => rfl
    | cons first' rest' =>
      obtain ⟨-, hn, -⟩ := ordered_cons.mp h'
      exact (absurd_of_lt hn (List.forall_mem_nil _) (hget first'.1).symm).elim
  | cons first rest ih =>
    obtain ⟨k, n⟩ := first
    obtain ⟨hk, hn, hrest⟩ := ordered_cons.mp h
    cases counts' with
    | nil => exact (absurd_of_lt hn (List.forall_mem_nil _) (hget k)).elim
    | cons first' rest' =>
      obtain ⟨k', n'⟩ := first'
      obtain ⟨hk', hn', hrest'⟩ := ordered_cons.mp h'
      rcases Std.lt_trichotomy k k' with hlt | rfl | hlt
      · refine (absurd_of_lt hn (List.forall_mem_cons.mpr ⟨hlt, ?_⟩) (hget k)).elim
        exact fun entry hm => List.lt_trans hlt (hk' entry hm)
      · have heq : n = n' := by simpa [get_cons] using hget k
        have hrest : (⟨rest⟩ : Counter) = ⟨rest'⟩ := by
          refine ih hrest rest' hrest' fun key => ?_
          have hkey := hget key
          rw [get_cons, get_cons] at hkey
          by_cases he : k = key
          · subst he
            rw [get_eq_zero hk, get_eq_zero hk']
          · rwa [if_neg he, if_neg he] at hkey
        cases hrest
        rw [heq]
      · refine (absurd_of_lt hn' (List.forall_mem_cons.mpr ⟨hlt, ?_⟩) (hget k').symm).elim
        exact fun entry hm => List.lt_trans hlt (hk entry hm)

theorem Ordered.eq_of_key {c : Counter} (h : c.Ordered) {a b : Bytes × Nat} (ha : a ∈ c.counts)
    (hb : b ∈ c.counts) (he : a.1 = b.1) : a = b := by
  refine Prod.ext he ?_
  rw [← get_of_mem h ha, ← get_of_mem h hb, he]

/-! Rows that come in any order are shown in the order of their texts. -/

def arranged (c : Counter) : Counter := ⟨c.counts.mergeSort fun a b => Bytes.le a.1 b.1⟩

theorem Ordered.arranged_eq {c : Counter} (h : c.Ordered) {rows : List (Bytes × Nat)}
    (hp : rows.Perm c.counts) : arranged ⟨rows⟩ = c := by
  have hperm := (List.mergeSort_perm rows fun a b => Bytes.le a.1 b.1).trans hp
  have hsorted : (rows.mergeSort fun a b => Bytes.le a.1 b.1).Pairwise fun a b => a.1 ≤ b.1 := by
    refine (List.pairwise_mergeSort (fun a b c => ?_) (fun a b => ?_) rows).imp
      fun {a b} => (Bytes.le_iff a.1 b.1).mp
    · simp only [Bytes.le_iff]
      exact List.le_trans
    · simp only [Bool.or_eq_true, Bytes.le_iff]
      exact List.le_total a.1 b.1
  refine congrArg Counter.mk (List.Perm.eq_of_pairwise ?_ hsorted (h.rising.imp List.le_of_lt) hperm)
  intro a b ha hb hab hba
  exact h.eq_of_key (hperm.mem_iff.mp ha) hb (List.le_antisymm hab hba)

end Counter

namespace TableCounter

/-- The row that was seen more often comes first, and of two that were seen as often the one whose text
does. -/
def ranksBefore (a b : Bytes × Nat) : Bool := if a.2 = b.2 then Bytes.le a.1 b.1 else b.2 < a.2

def arranged (t : TableCounter) : TableCounter := { t with rows := ⟨t.rows.counts.mergeSort ranksBefore⟩ }

theorem ranksBefore_iff (a b : Bytes × Nat) :
    ranksBefore a b = true ↔ b.2 < a.2 ∨ a.2 = b.2 ∧ a.1 ≤ b.1 := by
  unfold ranksBefore
  split
  · next he => simp [he, Bytes.le_iff]
  · next he => simp [he]

theorem ranksBefore_trans (a b c : Bytes × Nat) (hab : ranksBefore a b = true)
    (hbc : ranksBefore b c = true) : ranksBefore a c = true := by
  rw [ranksBefore_iff] at hab hbc ⊢
  rcases hab with hab | ⟨heq, hab⟩
  · rcases hbc with hbc | ⟨heq', -⟩
    · exact .inl (by omega)
    · exact .inl (by omega)
  · rcases hbc with hbc | ⟨heq', hbc⟩
    · exact .inl (by omega)
    · exact .inr ⟨heq.trans heq', List.le_trans hab hbc⟩

theorem ranksBefore_total (a b : Bytes × Nat) : (ranksBefore a b || ranksBefore b a) = true := by
  rw [Bool.or_eq_true, ranksBefore_iff, ranksBefore_iff]
  rcases Nat.lt_trichotomy a.2 b.2 with hlt | heq | hlt
  · exact .inr (.inl hlt)
  · rcases List.le_total a.1 b.1 with hle | hle
    · exact .inl (.inr ⟨heq, hle⟩)
    · exact .inr (.inr ⟨heq.symm, hle⟩)
  · exact .inl (.inl hlt)

/-- Sorting by count keeps rows with one count in the order of their texts. -/
theorem pairwise_ranksBefore {rows : List (Bytes × Nat)} (h : rows.Pairwise fun a b => a.1 < b.1) :
    (rows.mergeSort fun a b => a.2 ≥ b.2).Pairwise fun a b => ranksBefore a b = true := by
  have htrans (a b c : Bytes × Nat) (hab : decide (a.2 ≥ b.2) = true)
      (hbc : decide (b.2 ≥ c.2) = true) : decide (a.2 ≥ c.2) = true := by
    simp only [ge_iff_le, decide_eq_true_eq] at *
    omega
  have htotal (a b : Bytes × Nat) : (decide (a.2 ≥ b.2) || decide (b.2 ≥ a.2)) = true := by
    simp only [ge_iff_le, Bool.or_eq_true, decide_eq_true_eq]
    omega
  induction rows with
  | nil => simp
  | cons first rest ih =>
    obtain ⟨hfirst, hrest⟩ := List.pairwise_cons.mp h
    obtain ⟨before, after, he, hr, hbefore⟩ := List.mergeSort_cons htrans htotal first rest
    have hsorted := List.pairwise_mergeSort htrans htotal (first :: rest)
    have hmem : ∀ entry ∈ after, entry ∈ rest := fun entry hm =>
      (List.mergeSort_perm rest _).mem_iff.mp (hr ▸ List.mem_append_right _ hm)
    have ih := ih hrest
    rw [he, List.pairwise_append, List.pairwise_cons] at hsorted
    rw [hr, List.pairwise_append] at ih
    obtain ⟨-, ⟨hafter, -⟩, -⟩ := hsorted
    obtain ⟨ihb, iha, ihab⟩ := ih
    rw [he, List.pairwise_append, List.pairwise_cons]
    refine ⟨ihb, ⟨fun entry hm => ?_, iha⟩, fun entry hm => List.forall_mem_cons.mpr ⟨?_, ihab entry hm⟩⟩
    · rw [ranksBefore_iff]
      have hle : first.2 ≥ entry.2 := by simpa using hafter entry hm
      rcases hle.lt_or_eq with hlt | heq
      · exact .inl hlt
      · exact .inr ⟨heq.symm, List.le_of_lt (hfirst entry (hmem entry hm))⟩
    · rw [ranksBefore_iff]
      have hlt := hbefore entry hm
      simp only [ge_iff_le, Bool.not_eq_true', decide_eq_false_iff_not] at hlt
      exact .inl (by omega)

/-- There is one way to rank the rows, whatever order they come in. -/
theorem ranked_eq {c : Counter} (h : c.Ordered) {rows : List (Bytes × Nat)} (hp : rows.Perm c.counts)
    (hranked : rows.Pairwise fun a b => ranksBefore a b = true) :
    rows = c.counts.mergeSort fun a b => a.2 ≥ b.2 := by
  refine List.Perm.eq_of_pairwise ?_ hranked (pairwise_ranksBefore h.rising)
    (hp.trans (List.mergeSort_perm _ _).symm)
  intro a b ha hb hab hba
  rw [ranksBefore_iff] at hab hba
  refine h.eq_of_key (hp.mem_iff.mp ha) ((List.mergeSort_perm _ _).mem_iff.mp hb) ?_
  rcases hab with hab | ⟨heq, hab⟩
  · rcases hba with hba | ⟨heq, -⟩ <;> omega
  · rcases hba with hba | ⟨-, hba⟩
    · omega
    · exact List.le_antisymm hab hba

/-- However the rows are listed, one text comes out. -/
theorem toJson_arranged {t : TableCounter} (h : t.rows.Ordered) {rows : List (Bytes × Nat)}
    (hp : rows.Perm t.rows.counts) :
    ({ t with rows := ⟨rows⟩ } : TableCounter).arranged.toJson = t.toJson := by
  have hranked := List.pairwise_mergeSort ranksBefore_trans ranksBefore_total rows
  have hsame := ranked_eq h ((List.mergeSort_perm rows ranksBefore).trans hp) hranked
  have hagain : (rows.mergeSort ranksBefore).mergeSort (fun a b => a.2 ≥ b.2) =
      rows.mergeSort ranksBefore := by
    refine List.mergeSort_of_pairwise (hranked.imp fun {a b} hab => ?_)
    rw [decide_eq_true_eq]
    rcases (ranksBefore_iff a b).mp hab with hlt | ⟨heq, -⟩
    · exact hlt.le
    · exact heq.ge
  unfold toJson arranged
  dsimp only
  rw [hagain, hsame]

end TableCounter

end CommandShell
