import CommandShell.Proofs.Counting
import CommandShell.Proofs.RowText
import Mathlib

/-! A table of rows counts each row. What it shows lists every row that was counted once, with its values
and its count, in one order only. -/
namespace CommandShell

namespace Counter
variable {c : Counter}

theorem Ordered.foldl (h : c.Ordered) (keys : List Bytes) : (keys.foldl Counter.increment c).Ordered := by
  induction keys generalizing c with
  | nil => exact h
  | cons key keys ih => exact ih (h.increment key)

theorem Ordered.get_foldl (h : c.Ordered) (keys : List Bytes) (key : Bytes) :
    (keys.foldl Counter.increment c).get key = c.get key + keys.count key := by
  induction keys generalizing c with
  | nil => rfl
  | cons first keys ih =>
    rw [List.foldl_cons, ih (h.increment first), get_increment h, List.count_cons, Nat.add_assoc,
      Nat.add_comm (keys.count key)]
    simp only [beq_iff_eq]

theorem total_foldl (c : Counter) (keys : List Bytes) :
    (keys.foldl increment c).total = c.total + keys.length := by
  induction keys generalizing c with
  | nil => rfl
  | cons key keys ih =>
    rw [List.foldl_cons, ih, total_increment, List.length_cons]
    omega

/-- The entries are the texts with a count. -/
theorem Ordered.mem_counts_iff (h : c.Ordered) {key : Bytes} {n : Nat} :
    (key, n) ∈ c.counts ↔ 0 < n ∧ c.get key = n := by
  constructor
  · intro hm
    exact ⟨h.seen _ hm, get_of_mem h hm⟩
  · rintro ⟨hpos, hget⟩
    cases hf : c.counts.find? (·.1 == key) with
    | none =>
      have hzero : c.get key = 0 := by rw [get, hf]; rfl
      omega
    | some entry =>
      have hkey : entry.1 = key := by simpa using List.find?_some hf
      have hcount : entry.2 = n := by rw [← hget, get, hf]; rfl
      rw [← hkey, ← hcount]
      exact List.mem_of_find?_eq_some hf

theorem total_eq_sum (c : Counter) : c.total = (c.counts.map Prod.snd).sum := by
  rw [total, List.sum, List.foldr_map]

end Counter

namespace TableCounter

/-- Counts one row after the other. -/
def countAll? (t : TableCounter) (rows : List (List Bytes)) : Option TableCounter :=
  rows.foldlM increment? t

theorem countAll?_eq {t : TableCounter} {rows : List (List Bytes)}
    (h : ∀ row ∈ rows, row.length = t.columns.length) :
    t.countAll? rows = some { t with rows := (rows.map rowText).foldl Counter.increment t.rows } := by
  induction rows generalizing t with
  | nil => rfl
  | cons row rows ih =>
    obtain ⟨hrow, hrows⟩ := List.forall_mem_cons.mp h
    rw [countAll?, List.foldlM_cons, increment?, if_pos hrow, Option.bind_eq_bind, Option.bind_some]
    exact ih (t := { t with rows := t.rows.increment (rowText row) }) hrows

/-- A row with its count. -/
def readEntry (entry : Bytes × Nat) : List Bytes × Nat := (ofRowText entry.1, entry.2)

/-- Rows as they are listed: every row that was counted stands there once, with its count, the most
frequent first and those with one count in the order of their texts. -/
structure Lists (rows : List (List Bytes)) (listed : List (List Bytes × Nat)) : Prop where
  distinct : (listed.map Prod.fst).Nodup
  mem_iff : ∀ row, row ∈ listed.map Prod.fst ↔ row ∈ rows
  count : ∀ entry ∈ listed, entry.2 = rows.count entry.1
  total : (listed.map Prod.snd).sum = rows.length
  ranked : listed.Pairwise fun a b => b.2 < a.2 ∨ a.2 = b.2 ∧ rowText a.1 < rowText b.1

section
variable {rows : List (List Bytes)} {entries : List (Bytes × Nat)}
  (hp : entries.Perm ((rows.map rowText).foldl Counter.increment {}).counts)
include hp

theorem pairwise_ne : entries.Pairwise fun a b => a.1 ≠ b.1 := by
  have hord := Counter.ordered_empty.foldl (rows.map rowText)
  refine (hp.pairwise_iff fun {a b} h he => h he.symm).mpr (hord.rising.imp fun {a b} hlt he => ?_)
  rw [he] at hlt
  exact List.lt_irrefl _ hlt

theorem sum_counts : (entries.map Prod.snd).sum = rows.length := by
  have htotal := Counter.total_foldl {} (rows.map rowText)
  rw [Counter.total_eq_sum, ← (hp.map Prod.snd).sum_nat, List.length_map] at htotal
  exact htotal.trans (Nat.zero_add _)

end

section
variable {rows : List (List Bytes)} (hvalid : ∀ row ∈ rows, ValidRow row)
include hvalid

theorem count_rowText {row : List Bytes} (h : ValidRow row) :
    (rows.map rowText).count (rowText row) = rows.count row := by
  rw [List.count, List.count, List.countP_map]
  refine List.countP_congr fun other hm => ?_
  simp only [Function.comp_apply, beq_iff_eq]
  exact ⟨rowText_injective (hvalid other hm) h, congrArg rowText⟩

theorem mem_counts_iff {entry : Bytes × Nat} :
    entry ∈ ((rows.map rowText).foldl Counter.increment {}).counts ↔
      ∃ row ∈ rows, entry = (rowText row, rows.count row) := by
  obtain ⟨text, n⟩ := entry
  have hget := Counter.ordered_empty.get_foldl (rows.map rowText) text
  rw [Counter.get_nil, Nat.zero_add] at hget
  rw [(Counter.ordered_empty.foldl _).mem_counts_iff, hget]
  constructor
  · rintro ⟨hpos, rfl⟩
    obtain ⟨row, hm, rfl⟩ := List.mem_map.mp (List.count_pos_iff.mp hpos)
    exact ⟨row, hm, by rw [count_rowText hvalid (hvalid row hm)]⟩
  · rintro ⟨row, hm, he⟩
    obtain ⟨rfl, rfl⟩ := Prod.mk.inj he
    exact ⟨List.count_pos_iff.mpr hm, count_rowText hvalid (hvalid row hm)⟩

/-- An entry is read back as its row. -/
theorem readEntry_eq {row : List Bytes} (hm : row ∈ rows) (n : Nat) :
    readEntry (rowText row, n) = (row, n) := by
  rw [readEntry, ofRowText_rowText (hvalid row hm)]

variable {entries : List (Bytes × Nat)}
  (hp : entries.Perm ((rows.map rowText).foldl Counter.increment {}).counts)
include hp

theorem exists_row {entry : Bytes × Nat} (hm : entry ∈ entries) :
    ∃ row ∈ rows, entry = (rowText row, rows.count row) :=
  (mem_counts_iff hvalid).mp (hp.mem_iff.mp hm)

theorem mem_map_readEntry {item : List Bytes × Nat} :
    item ∈ entries.map readEntry ↔ ∃ row ∈ rows, item = (row, rows.count row) := by
  rw [List.mem_map]
  constructor
  · rintro ⟨entry, hm, rfl⟩
    obtain ⟨row, hrow, rfl⟩ := exists_row hvalid hp hm
    exact ⟨row, hrow, readEntry_eq hvalid hrow _⟩
  · rintro ⟨row, hrow, rfl⟩
    exact ⟨_, hp.mem_iff.mpr ((mem_counts_iff hvalid).mpr ⟨row, hrow, rfl⟩), readEntry_eq hvalid hrow _⟩

/-- Ranked entries list the rows. -/
theorem lists_ranked (hr : entries.Pairwise fun a b => ranksBefore a b = true) :
    Lists rows (entries.map readEntry) := by
  have hkeys := pairwise_ne hp
  refine ⟨?_, fun row => ?_, fun item hm => ?_, ?_, ?_⟩
  · rw [List.Nodup, List.pairwise_map, List.pairwise_map]
    refine hkeys.imp_of_mem fun {a b} ha hb hne he => ?_
    obtain ⟨row, hrow, rfl⟩ := exists_row hvalid hp ha
    obtain ⟨row', hrow', rfl⟩ := exists_row hvalid hp hb
    rw [readEntry_eq hvalid hrow, readEntry_eq hvalid hrow'] at he
    exact hne (congrArg rowText he)
  · rw [List.mem_map]
    constructor
    · rintro ⟨item, hm, rfl⟩
      obtain ⟨row, hrow, rfl⟩ := (mem_map_readEntry hvalid hp).mp hm
      exact hrow
    · exact fun hrow => ⟨_, (mem_map_readEntry hvalid hp).mpr ⟨row, hrow, rfl⟩, rfl⟩
  · obtain ⟨row, -, rfl⟩ := (mem_map_readEntry hvalid hp).mp hm
    rfl
  · rw [List.map_map]
    exact sum_counts hp
  · rw [List.pairwise_map]
    refine (hr.and hkeys).imp_of_mem fun {a b} ha hb hboth => ?_
    obtain ⟨hranks, hne⟩ := hboth
    obtain ⟨row, hrow, rfl⟩ := exists_row hvalid hp ha
    obtain ⟨row', hrow', rfl⟩ := exists_row hvalid hp hb
    rw [readEntry_eq hvalid hrow, readEntry_eq hvalid hrow']
    rcases (ranksBefore_iff _ _).mp hranks with hlt | ⟨heq, hle⟩
    · exact .inl hlt
    · exact .inr ⟨heq, Std.lt_of_le_of_ne hle hne⟩

end

/-- A row as it is shown, with its count. -/
def itemJson (columns : List Bytes) (item : List Bytes × Nat) : Json :=
  .object [("count", .nat item.2), ("event", rowJson columns item.1)]

theorem toJson_eq (t : TableCounter) :
    t.toJson = .array (((t.rows.counts.mergeSort fun a b => a.2 ≥ b.2).map readEntry).map
      (itemJson t.columns)) := by
  rw [List.map_map]
  rfl

theorem proper_itemJson {columns : List Bytes} {item : List Bytes × Nat}
    (h : Json.Proper 1 (rowJson columns item.1)) : Json.Proper 2 (itemJson columns item) := by
  have hcount : Json.Proper 1 (.nat item.2) := Json.Proper.int 1 (Int.ofNat item.2)
  refine Json.ProperFields.proper ?_
  exact Json.properFields_cons (by decide) hcount
    (Json.properFields_cons (by decide) h (Json.properFields_nil 1))

/-- Rows of valid texts are counted, each as often as it occurs. Whatever order the entries come in, they
are ranked in one way, and each row is shown once, with the value of every column and its count. -/
theorem counts_every_row {columns : List Bytes} (hcols : columns.Nodup) {rows : List (List Bytes)}
    (hlen : ∀ row ∈ rows, row.length = columns.length) (hvalid : ∀ row ∈ rows, ValidRow row) :
    ∃ t : TableCounter, countAll? { columns } rows = some t ∧
      (∀ row, ValidRow row → t.get row = rows.count row) ∧
      (∀ entry ∈ t.rows.counts, (ofRowText entry.1).length = columns.length) ∧
      ∃ listed : List (List Bytes × Nat), Lists rows listed ∧
        (∀ item ∈ listed, item.2 = t.get item.1 ∧ Shows columns item.1 (rowJson columns item.1)) ∧
        t.toJson = .array (listed.map (itemJson columns)) ∧
        (∀ entries : List (Bytes × Nat), entries.Perm t.rows.counts →
          entries.Pairwise (fun a b => ranksBefore a b = true) → entries.map readEntry = listed) ∧
        (ValidRow columns → Json.read? (t.toJson.write true) = some t.toJson) := by
  have hord := Counter.ordered_empty.foldl (rows.map rowText)
  have hget {row : List Bytes} (h : ValidRow row) :
      ((rows.map rowText).foldl Counter.increment {}).get (rowText row) = rows.count row := by
    rw [Counter.ordered_empty.get_foldl, count_rowText hvalid h, Counter.get_nil, Nat.zero_add]
  have hlists := lists_ranked hvalid (List.mergeSort_perm _ _) (pairwise_ranksBefore hord.rising)
  have hmem {item : List Bytes × Nat} (hm : item ∈ _) : item.1 ∈ rows :=
    (hlists.mem_iff item.1).mp (List.mem_map_of_mem hm)
  have hshows {item : List Bytes × Nat} (hm : item ∈ _) : Shows columns item.1 (rowJson columns item.1) :=
    shows_rowJson hcols (hlen item.1 (hmem hm))
  refine ⟨_, countAll?_eq hlen, fun row h => hget h, fun entry hm => ?_, _, hlists, fun item hm => ?_,
    toJson_eq _, fun entries hp hr => by rw [ranked_eq hord hp hr], fun hnames => ?_⟩
  · obtain ⟨row, hrow, rfl⟩ := (mem_counts_iff hvalid).mp hm
    rw [ofRowText_rowText (hvalid row hrow), hlen row hrow]
  · exact ⟨(hlists.count item hm).trans (hget (hvalid _ (hmem hm))).symm, hshows hm⟩
  · rw [toJson_eq]
    refine Json.read?_array (d := 3) true (.array fun v hv => ?_) (by decide)
    obtain ⟨item, hm, rfl⟩ := List.mem_map.mp hv
    exact proper_itemJson ((hshows hm).proper hnames (hvalid _ (hmem hm)))

/-- Two rows that are the same but for where the commas are. -/
theorem counts_every_row_commas :
    let columns : List Bytes := ["path", "error"]
    let rows : List (List Bytes) := [["a,b", "c"], ["a", "b,c"], ["a,b", "c"]]
    ∃ t : TableCounter, countAll? { columns } rows = some t ∧ t.get ["a,b", "c"] = 2 ∧
      t.get ["a", "b,c"] = 1 ∧ t.get ["a,b,c"] = 0 ∧
      Json.read? (t.toJson.write true) = some t.toJson := by
  intro columns rows
  have hrow {row : List Bytes} (h : ∀ value ∈ row, value.all (· < 0x80) = true) : ValidRow row :=
    fun value hm => Utf8.isValid_of_ascii (h value hm)
  have hascii : ∀ row ∈ rows, ∀ value ∈ row, value.all (· < 0x80) = true := by decide
  have hcols : columns.Nodup := by decide
  have hlen : ∀ row ∈ rows, row.length = columns.length := by decide
  obtain ⟨t, ht, hget, -, listed, -, -, -, -, hread⟩ :=
    counts_every_row hcols hlen fun row hm => hrow (hascii row hm)
  refine ⟨t, ht, ?_, ?_, ?_, hread (hrow (by decide))⟩
  · exact (hget _ (hrow (by decide))).trans (by decide)
  · exact (hget _ (hrow (by decide))).trans (by decide)
  · exact (hget _ (hrow (by decide))).trans (by decide)

end TableCounter

end CommandShell
