import CommandShell.Counter
import CommandShell.Proofs.EntryText
import CommandShell.Proofs.EnvironmentCopy

/-! The JSON text of a row. It is read back as the row, so that no two rows share a text, and the row of
a table is shown with the value of each column under its name. -/
namespace CommandShell

namespace Json

/-- An array is read back as the whole of a text. -/
theorem read?_array (markup : Bool) {d : Nat} {items : List Json} (h : Proper d (.array items))
    (hd : d ≤ maxDepth) : read? (write markup (.array items)) = some (.array items) := by
  have hread : readFirst (write markup (.array items)) = .ok (.array items, []) := by
    cases h.nested with
    | @array d _ hitems =>
      have hrun := run_array markup hitems (fun v hv => (hitems v hv).readBack markup) []
        (by simpa [Nat.add_comm] using hd) []
      rw [List.append_nil, h.clean] at hrun
      exact hrun
  rw [read?, hread]
  rfl

end Json

namespace TableCounter

/-- Values without stray bytes. -/
def ValidRow (row : List Bytes) : Prop := ∀ value ∈ row, Utf8.isValid value = true

theorem ofRowText_rowText {row : List Bytes} (h : ValidRow row) : ofRowText (rowText row) = row := by
  have hwords : ValidWords (some row) := by
    rintro _ ⟨⟩
    exact h
  have hproper : Json.Proper 1 (.strings row) := Json.proper_words hwords
  have hread : Json.read? (rowText row) = some (.strings row) := Json.read?_array true hproper (by decide)
  have htexts : Json.texts (fun _ => ()) (fun _ => ()) (.strings row) none = pure (some row) :=
    Json.texts_strings _ _ (some row) none
  unfold ofRowText
  rw [hread]
  dsimp only
  rw [htexts]
  rfl

theorem rowText_injective {row row' : List Bytes} (h : ValidRow row) (h' : ValidRow row')
    (heq : rowText row = rowText row') : row = row' := by
  rw [← ofRowText_rowText h, heq, ofRowText_rowText h']

/-! ### The fields of a row -/

/-- Names without duplicates stay as they are. -/
theorem eraseDups_of_nodup {names : List Bytes} (h : names.Nodup) : names.eraseDups = names := by
  induction names with
  | nil => rfl
  | cons name names ih =>
    obtain ⟨hname, hnames⟩ := List.nodup_cons.mp h
    have hfilter : names.filter (fun other => !other == name) = names := by
      refine List.filter_eq_self.mpr fun other hm => ?_
      have hne : other ≠ name := fun he => hname (he ▸ hm)
      simpa using hne
    rw [List.eraseDups_cons, hfilter, ih hnames]

/-- Each column has a field with its value in the row, and the fields come in the order of their
names. -/
def Shows (columns row : List Bytes) (event : Json) : Prop :=
  ∃ fields : List (Bytes × Json), event = .object fields ∧
    fields.Pairwise (fun a b => a.1 < b.1) ∧
    fields.Perm ((columns.zip row).map fun cell => (cell.1, .string cell.2))

theorem shows_rowJson {columns row : List Bytes} (hcols : columns.Nodup)
    (hlen : row.length = columns.length) : Shows columns row (rowJson columns row) := by
  have hnames : (columns.zip row).map Prod.fst = columns := List.map_fst_zip (Nat.le_of_eq hlen.symm)
  have hcell : ∀ cell ∈ columns.zip row,
      (((columns.zip row).reverse.find? (·.1 == cell.1)).map Prod.snd).getD [] = cell.2 := by
    intro cell hm
    have hnodup : ((columns.zip row).reverse.map Prod.fst).Nodup := by
      rw [List.map_reverse, hnames]
      exact List.nodup_reverse.mpr hcols
    rw [find?_of_mem hnodup (List.mem_reverse.mpr hm)]
    rfl
  have hperm : (Bytes.sort columns).Perm columns := List.mergeSort_perm _ _
  refine ⟨_, rfl, ?_, ?_⟩
  · rw [List.pairwise_map, eraseDups_of_nodup hcols]
    have hnodup : (Bytes.sort columns).Pairwise (· ≠ ·) := hperm.nodup_iff.mpr hcols
    exact ((Bytes.pairwise_sort columns).and hnodup).imp fun h => Std.lt_of_le_of_ne h.1 h.2
  · rw [eraseDups_of_nodup hcols]
    refine (hperm.map _).trans (List.Perm.of_eq ((congrArg (List.map _) hnames.symm).trans ?_))
    rw [List.map_map]
    refine List.map_congr_left fun cell hm => ?_
    rw [Function.comp_apply, hcell cell hm]

theorem Shows.proper {columns row : List Bytes} {event : Json} (h : Shows columns row event)
    (hcols : ValidRow columns) (hrow : ValidRow row) : Json.Proper 1 event := by
  obtain ⟨fields, rfl, -, hperm⟩ := h
  have hcell : ∀ field ∈ fields, ∃ cell ∈ columns.zip row, (cell.1, .string cell.2) = field :=
    fun field hf => List.mem_map.mp (hperm.mem_iff.mp hf)
  refine .object (fun field hf => ?_) (fun field hf => ?_)
  · obtain ⟨cell, hm, rfl⟩ := hcell field hf
    exact hcols _ (List.of_mem_zip hm).1
  · obtain ⟨cell, hm, rfl⟩ := hcell field hf
    exact .string 0 (hrow _ (List.of_mem_zip hm).2)

end TableCounter

end CommandShell
