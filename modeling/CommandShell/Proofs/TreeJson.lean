import CommandShell.Tree.Json
import CommandShell.Proofs.EntryText
import CommandShell.Proofs.Printing
import CommandShell.Proofs.ReadValue

/-! Trees and their JSON. A tree is read back from its JSON, unless a kind in it has no name, and any
tree that is read from a text can be written and read again. -/
namespace CommandShell

/-! Kinds and their names. -/

namespace Kind

/-- A number that belongs to no kind. -/
def isUnknown : Kind → Bool
  | unknown _ => true
  | _ => false

theorem ofName?_name {kind : Kind} (h : kind.isUnknown = false) : ofName? kind.name = some kind := by
  cases kind with
  | unknown n => cases h
  | _ => rfl

/-- No kind has a name that starts as those of unknown kinds do. -/
theorem ofName?_unknown (n : Int) : ofName? (unknown n).name = none := by
  have hhead : (unknown n).name.head? = some 107 := rfl
  have hnamed : ∀ entry ∈ named, entry.2.head? ≠ some 107 := by decide
  rw [ofName?, Option.map_eq_none_iff, List.find?_eq_none]
  intro entry hm heq
  rw [← beq_iff_eq.mp heq] at hhead
  exact hnamed entry hm hhead

theorem isUnknown_of_ofName? {s : Bytes} {kind : Kind} (h : ofName? s = some kind) :
    kind.isUnknown = false := by
  have hnamed : ∀ entry ∈ named, entry.1.isUnknown = false := by decide
  obtain ⟨entry, hfind, rfl⟩ := Option.map_eq_some_iff.mp h
  exact hnamed entry (List.mem_of_find?_eq_some hfind)

theorem isValid_name (kind : Kind) : Utf8.isValid kind.name = true := by
  have hdigits (n : Nat) : (Bytes.ofNat n).all (· < 0x80) = true := by
    rw [List.all_eq_true]
    intro b hb
    have hdigit := Bytes.isDigit_ofNat n b hb
    simp only [Bytes.isDigit, Bool.and_eq_true, decide_eq_true_eq] at hdigit
    simp only [decide_eq_true_eq, UInt8.lt_iff_toNat_lt, UInt8.le_iff_toNat_le] at hdigit ⊢
    have htop : b.toNat ≤ 57 := hdigit.2
    exact Nat.lt_of_le_of_lt htop (by decide)
  have hint (n : Int) : (Bytes.ofInt n).all (· < 0x80) = true := by
    cases n with
    | ofNat n => exact hdigits n
    | negSucc n =>
      rw [Bytes.ofInt_negSucc, List.all_cons, hdigits]
      rfl
  refine Utf8.isValid_of_ascii ?_
  cases kind with
  | unknown n =>
    rw [name, List.all_append, List.all_append, hint]
    rfl
  | _ => decide

end Kind

/-! Decoding with at most one complaint. -/

namespace Json
variable {ε α β : Type}

/-- Gives a value and may complain. -/
def tell (e : Option ε) (x : α) : Decode ε α := fun first => (x, first.or e)

theorem pure_eq_tell (x : α) : (pure x : Decode ε α) = tell none x := by
  funext first
  exact congrArg (Prod.mk x) (Option.or_none).symm

theorem bind_tell {m : Decode ε α} {f : α → Decode ε β} {e e' : Option ε} {x : α} {y : β}
    (hm : m = tell e x) (hf : f x = tell e' y) : m >>= f = tell (e.or e') y := by
  subst hm
  funext first
  change f x (first.or e) = _
  rw [hf]
  exact congrArg (Prod.mk y) Option.or_assoc

theorem return_tell {m : Decode ε α} {e : Option ε} {x : α} (hm : m = tell e x) (f : α → β) :
    (do return f (← m)) = (tell e (f x) : Decode ε β) := by
  have h := bind_tell (f := fun x => pure (f x)) hm (pure_eq_tell (f x))
  rwa [Option.or_none] at h

theorem result_tell (e : Option ε) (x : α) :
    (tell e x).result = match e with
      | none => .ok x
      | some e => .error e := by
  cases e <;> rfl

end Json

theorem Redirections.forall_mem_texts {p : Bytes → Prop} {files : Redirections} :
    (∀ s ∈ files.texts, p s) ↔ p files.input ∧ p files.output ∧ p files.append ∧ p files.error := by
  simp [texts]

namespace Tree
open Json (tell fieldIf)

/-- The kinds of all nodes, each node before its operands. -/
def kinds : Tree → List Kind
  | absent => []
  | node kind _ _ left right => kind :: left.kinds ++ right.kinds

/-- The kinds that have a name stay, and the others become what they are before they are read. -/
def named : Tree → Tree
  | absent => absent
  | node kind argv files left right =>
    node (if kind.isUnknown then .plain else kind) argv files left.named right.named

/-- The complaint about the first kind that has no name. -/
def complaint (kinds : List Kind) : Option JsonError :=
  (kinds.find? Kind.isUnknown).map fun kind => .unknownKind kind.name

theorem complaint_append (first rest : List Kind) :
    complaint (first ++ rest) = (complaint first).or (complaint rest) := by
  rw [complaint, List.find?_append, Option.map_or, complaint, complaint]

/-! Reading a field. -/

theorem readKind_of_some {s : Bytes} {kind : Kind} (h : Kind.ofName? s = some kind) (old : Kind) :
    readKind (.string s) old = tell none kind := by
  unfold readKind
  simp only [pure_bind, h]
  exact Json.pure_eq_tell kind

theorem readKind_of_none {s : Bytes} (h : Kind.ofName? s = none) (old : Kind) :
    readKind (.string s) old = tell (some (.unknownKind s)) old := by
  unfold readKind
  simp only [pure_bind, h]
  rfl

section
variable {kind : Kind} {argv : List Bytes} {files : Redirections} {left right : Tree}

theorem readField_kind (new : Kind) :
    readField ("kind", .string new.name) (node kind argv files left right) =
      tell (complaint [new]) (node (if new.isUnknown then kind else new) argv files left right) := by
  have hread : readKind (.string new.name) kind =
      tell (complaint [new]) (if new.isUnknown then kind else new) := by
    cases hu : new.isUnknown with
    | false =>
      have hnone : complaint [new] = none := by simp [complaint, hu]
      rw [hnone]
      exact readKind_of_some (Kind.ofName?_name hu) kind
    | true =>
      cases new with
      | unknown n => exact readKind_of_none (Kind.ofName?_unknown n) kind
      | _ => cases hu
  exact Json.return_tell hread fun kind => node kind argv files left right

theorem readField_argv (new : List Bytes) :
    readField ("argv", .strings new) (node kind argv files left right) =
      tell none (node kind new files left right) :=
  Json.return_tell ((Json.texts_strings wrong wrong (some new) (some argv)).trans (Json.pure_eq_tell _))
    fun words => node kind (words.getD []) files left right

theorem readField_input (s : Bytes) :
    readField ("input", .string s) (node kind argv files left right) =
      tell none (node kind argv { files with input := s } left right) :=
  Json.pure_eq_tell _

theorem readField_output (s : Bytes) :
    readField ("output", .string s) (node kind argv files left right) =
      tell none (node kind argv { files with output := s } left right) :=
  Json.pure_eq_tell _

theorem readField_append (s : Bytes) :
    readField ("append", .string s) (node kind argv files left right) =
      tell none (node kind argv { files with append := s } left right) :=
  Json.pure_eq_tell _

theorem readField_error (s : Bytes) :
    readField ("error", .string s) (node kind argv files left right) =
      tell none (node kind argv { files with error := s } left right) :=
  Json.pure_eq_tell _

theorem readField_left {v : Json} {e : Option JsonError} {new : Tree}
    (h : readInto v left = tell e new) :
    readField ("left", v) (node kind argv files left right) =
      tell e (node kind argv files new right) := by
  have hfield : readField ("left", v) (node kind argv files left right) =
      (do return node kind argv files (← readInto v left) right) := by
    rw [readField]
    rfl
  rw [hfield]
  exact Json.return_tell h fun left => node kind argv files left right

theorem readField_right {v : Json} {e : Option JsonError} {new : Tree}
    (h : readInto v right = tell e new) :
    readField ("right", v) (node kind argv files left right) =
      tell e (node kind argv files left new) := by
  have hfield : readField ("right", v) (node kind argv files left right) =
      (do return node kind argv files left (← readInto v right)) := by
    rw [readField]
    rfl
  rw [hfield]
  exact Json.return_tell h fun right => node kind argv files left right

end

/-! Reading a whole tree. -/

section
variable {entry : Bytes × Json} {rest : List (Bytes × Json)} {tree tree' tree'' : Tree}
  {e e' : Option JsonError}

theorem readFields_nil : readFields [] tree = tell none tree := by
  rw [readFields]
  exact Json.pure_eq_tell tree

theorem readFields_cons (h : readField entry tree = tell e tree')
    (hrest : readFields rest tree' = tell e' tree'') :
    readFields (entry :: rest) tree = tell (e.or e') tree'' := by
  rw [readFields]
  exact Json.bind_tell h hrest

/-- A field that may be left out. -/
theorem readFields_fieldIf {shown : Bool} {name : Bytes} {v : Json}
    (h : shown = true → readField (name, v) tree = tell e tree')
    (hnone : shown = false → e = none ∧ tree' = tree)
    (hrest : readFields rest tree' = tell e' tree'') :
    readFields (fieldIf shown name v ++ rest) tree = tell (e.or e') tree'' := by
  cases shown with
  | false =>
    obtain ⟨rfl, rfl⟩ := hnone rfl
    exact hrest
  | true => exact readFields_cons (h rfl) hrest

/-- A field that is read without complaint. -/
theorem readFields_quiet {shown : Bool} {name : Bytes} {v : Json}
    (h : readField (name, v) tree = tell none tree') (hsame : shown = false → tree' = tree)
    (hrest : readFields rest tree' = tell e' tree'') :
    readFields (fieldIf shown name v ++ rest) tree = tell e' tree'' :=
  readFields_fieldIf (fun _ => h) (fun hshown => ⟨rfl, hsame hshown⟩) hrest

/-- A text that is left out when it is empty. -/
theorem readFields_optional {name text : Bytes}
    (h : readField (name, .string text) tree = tell none tree') (hempty : text = [] → tree' = tree)
    (hrest : readFields rest tree' = tell e' tree'') :
    readFields (Json.optional name text ++ rest) tree = tell e' tree'' :=
  readFields_quiet h (fun hshown => hempty (by simpa using hshown)) hrest

/-- An operand that is left out when it is absent. -/
theorem readFields_operand {name : Bytes} {operand : Tree}
    (h : readField (name, operand.toJson) tree = tell (complaint operand.kinds) tree')
    (habsent : operand = absent → tree' = tree) (hrest : readFields rest tree' = tell e' tree'') :
    readFields (fieldIf (!operand.isAbsent) name operand.toJson ++ rest) tree =
      tell ((complaint operand.kinds).or e') tree'' := by
  refine readFields_fieldIf (fun _ => h) (fun hshown => ?_) hrest
  have hnone : operand = absent := by
    cases operand with
    | absent => rfl
    | node => cases hshown
  exact ⟨by rw [hnone]; rfl, habsent hnone⟩

end

/-- Reading the JSON of a tree complains about the first kind that has no name, and about nothing
else. -/
theorem readInto_toJson (t : Tree) : readInto t.toJson absent = tell (complaint t.kinds) t.named := by
  induction t with
  | absent =>
    rw [toJson, readInto]
    exact Json.pure_eq_tell absent
  | node kind argv files left right ihl ihr =>
    have hkinds : complaint (node kind argv files left right).kinds =
        (complaint [kind]).or ((complaint left.kinds).or ((complaint right.kinds).or none)) := by
      rw [Option.or_none, ← complaint_append, ← complaint_append]
      rfl
    rw [toJson, hkinds, readInto, ← List.append_nil (fieldIf (!right.isAbsent) "right" right.toJson)]
    simp only [List.append_assoc]
    refine readFields_cons (readField_kind kind) ?_
    refine readFields_quiet (readField_argv argv) (fun h => ?_) ?_
    · have hargv : argv = [] := by simpa using h
      rw [hargv]
    refine readFields_optional (readField_input files.input) (fun h => by rw [h]; rfl) ?_
    refine readFields_optional (readField_output files.output) (fun h => by rw [h]; rfl) ?_
    refine readFields_optional (readField_append files.append) (fun h => by rw [h]; rfl) ?_
    refine readFields_optional (readField_error files.error) (fun h => by rw [h]; rfl) ?_
    refine readFields_operand (readField_left ihl) (fun h => by rw [h]; rfl) ?_
    refine readFields_operand (readField_right ihr) (fun h => by rw [h]; rfl) ?_
    exact readFields_nil

/-! The text of a tree's JSON. -/

theorem isAbsent_mapTexts (f : Bytes → Bytes) (t : Tree) : (t.mapTexts f).isAbsent = t.isAbsent := by
  cases t <;> rfl

theorem kinds_mapTexts (f : Bytes → Bytes) (t : Tree) : (t.mapTexts f).kinds = t.kinds := by
  induction t with
  | absent => rfl
  | node kind argv files left right ihl ihr => rw [mapTexts, kinds, ihl, ihr, kinds]

theorem scrub_toJson (t : Tree) : t.toJson.scrub = (t.mapTexts Utf8.scrub).toJson := by
  induction t with
  | absent =>
    rw [mapTexts, toJson]
    exact (Json.Proper.null 0).clean
  | node kind argv files left right ihl ihr =>
    have hargv : (Json.strings argv).scrub = .strings (argv.map Utf8.scrub) := by
      simp [Json.strings, Function.comp_def]
    rw [mapTexts, toJson, toJson, Json.scrub_object]
    simp only [List.map_cons, List.map_append, Redirections.mapTexts, isAbsent_mapTexts]
    rw [Json.scrubField_ascii (by decide), Json.scrub_string, Json.scrub_of_isValid kind.isValid_name,
      Json.scrub_fieldIf (by decide), Json.scrub_optional (by decide), Json.scrub_optional (by decide),
      Json.scrub_optional (by decide), Json.scrub_optional (by decide), Json.scrub_fieldIf (by decide),
      Json.scrub_fieldIf (by decide), hargv, ihl, ihr, List.isEmpty_map]

/-- The values in the fields of a tree's JSON. -/
theorem forall_mem_toJson {p : Json → Prop} {kind : Kind} {argv : List Bytes} {files : Redirections}
    {left right : Tree} {fields : List (Bytes × Json)}
    (he : toJson (node kind argv files left right) = .object fields) :
    (∀ field ∈ fields, p field.2) ↔
      p (.string kind.name) ∧ (argv ≠ [] → p (.strings argv)) ∧
        (∀ s ∈ files.texts, s ≠ [] → p (.string s)) ∧
        (left ≠ absent → p left.toJson) ∧ (right ≠ absent → p right.toJson) := by
  have hfieldIf (shown : Bool) (name : Bytes) (v : Json) :
      (∀ field ∈ fieldIf shown name v, p field.2) ↔ (shown = true → p v) := by
    cases shown <;> simp [fieldIf]
  have hoperand (t : Tree) : (!t.isAbsent) = true ↔ t ≠ absent := by cases t <;> simp
  rw [toJson] at he
  obtain rfl := Json.object.inj he
  simp only [Json.optional, List.forall_mem_cons, List.forall_mem_append, hfieldIf, hoperand,
    Redirections.texts, List.not_mem_nil, false_imp_iff, implies_true, and_true, Bool.not_eq_true',
    List.isEmpty_eq_false_iff, and_assoc]

theorem toJson_object (kind : Kind) (argv : List Bytes) (files : Redirections) (left right : Tree) :
    ∃ fields, toJson (node kind argv files left right) = .object fields := ⟨_, by rw [toJson]⟩

theorem nested_toJson {t : Tree} {d : Nat} (h : t.toJson.depth ≤ d) : Json.Nested d t.toJson := by
  induction t generalizing d with
  | absent =>
    rw [toJson]
    exact .null d
  | node kind argv files left right ihl ihr =>
    obtain ⟨fields, he⟩ := toJson_object kind argv files left right
    rw [he] at h ⊢
    obtain ⟨hd, hfields⟩ := Json.depth_object_le.mp h
    obtain ⟨d, rfl⟩ := Nat.exists_eq_add_one_of_ne_zero (Nat.ne_of_gt hd)
    obtain ⟨-, hargv, -, hleft, hright⟩ :=
      (forall_mem_toJson (p := fun v => v.depth ≤ d) he).mp hfields
    refine .object ((forall_mem_toJson he).mpr ⟨.string d _, fun hne => ?_, fun s _ _ => .string d s,
      fun hne => ihl (hleft hne), fun hne => ihr (hright hne)⟩)
    obtain ⟨hpos, -⟩ := Json.depth_array_le.mp (hargv hne)
    obtain ⟨d, rfl⟩ := Nat.exists_eq_add_one_of_ne_zero (Nat.ne_of_gt hpos)
    refine .array fun v hv => ?_
    obtain ⟨word, -, rfl⟩ := List.mem_map.mp hv
    exact .string d word

/-- The JSON of a tree is a text from which that JSON is read, with its stray bytes replaced. -/
theorem read?_toJson (markup : Bool) {t : Tree} (h : t.toJson.depth ≤ Json.maxDepth) :
    Json.read? (t.toJson.write markup) = some (t.mapTexts Utf8.scrub).toJson := by
  cases t with
  | absent => cases markup <;> rfl
  | node kind argv files left right =>
    rw [← scrub_toJson]
    have hnested := nested_toJson h
    obtain ⟨fields, he⟩ := toJson_object kind argv files left right
    rw [he] at hnested ⊢
    have hread := hnested.readFirst_object markup (Nat.le_refl _) []
    rw [List.append_nil] at hread
    rw [Json.read?, hread]
    rfl

theorem ofJson_write (markup : Bool) {t : Tree} (h : t.toJson.depth ≤ Json.maxDepth) :
    ofJson (t.toJson.write markup) = match complaint t.kinds with
      | none => .ok (t.mapTexts Utf8.scrub).named
      | some e => .error e := by
  rw [ofJson, read?_toJson markup h]
  dsimp only
  rw [readInto_toJson, Json.result_tell, kinds_mapTexts]
  cases complaint t.kinds <;> rfl

/-! Trees that are read. -/

/-- What reading makes: trees of known kinds without stray bytes, whose JSON is nested up to a depth. -/
inductive Read : Nat → Tree → Prop where
  | absent (d : Nat) : Read d absent
  | node {d : Nat} {kind : Kind} {argv : List Bytes} {files : Redirections} {left right : Tree}
      (hkind : kind.isUnknown = false) (hargv : ∀ word ∈ argv, Utf8.isValid word = true)
      (hdepth : argv ≠ [] → 0 < d) (hfiles : ∀ s ∈ files.texts, Utf8.isValid s = true)
      (hleft : Read d left) (hright : Read d right) : Read (d + 1) (node kind argv files left right)

theorem Read.kinds {d : Nat} {t : Tree} (h : Read d t) : t.kinds.any Kind.isUnknown = false := by
  induction h with
  | absent => rfl
  | node hkind _ _ _ _ _ ihl ihr =>
    rw [Tree.kinds, List.cons_append, List.any_cons, List.any_append, hkind, ihl, ihr]
    rfl

theorem Read.texts {d : Nat} {t : Tree} (h : Read d t) : ∀ s ∈ t.texts, Utf8.isValid s = true := by
  induction h with
  | absent => exact List.forall_mem_nil _
  | node _ hargv _ hfiles _ _ ihl ihr =>
    simp only [Tree.texts, List.forall_mem_append]
    exact ⟨⟨⟨hargv, hfiles⟩, ihl⟩, ihr⟩

theorem Read.depth {d : Nat} {t : Tree} (h : Read d t) : t.toJson.depth ≤ d := by
  induction h with
  | absent d =>
    rw [toJson]
    exact Nat.zero_le d
  | @node d kind argv files left right _ _ hdepth _ _ _ ihl ihr =>
    obtain ⟨fields, he⟩ := toJson_object kind argv files left right
    have hstring (s : Bytes) : Json.depth (.string s) ≤ d := by simp
    rw [he, Json.depth_object_le]
    refine ⟨Nat.succ_pos d, (forall_mem_toJson (p := fun v => v.depth ≤ d) he).mpr
      ⟨hstring _, fun hne => ?_, fun s _ _ => hstring s, fun _ => ihl, fun _ => ihr⟩⟩
    refine Json.depth_array_le.mpr ⟨hdepth hne, fun v hv => ?_⟩
    obtain ⟨word, -, rfl⟩ := List.mem_map.mp hv
    simp

/-! Reading keeps them so. -/

section
variable {d : Nat}

theorem isValid_readText {v : Json} (hv : Json.Legible d v) {old : Bytes}
    (hold : Utf8.isValid old = true) (first : Option JsonError) :
    Utf8.isValid ((readText v old).run first).1 = true := by
  cases hv with
  | string d hs => exact hs
  | _ => exact hold

theorem isUnknown_readKind (v : Json) {old : Kind} (hold : old.isUnknown = false)
    (first : Option JsonError) : ((readKind v old).run first).1.isUnknown = false := by
  cases v with
  | string s =>
    cases hs : Kind.ofName? s with
    | none =>
      rw [readKind_of_none hs]
      exact hold
    | some kind =>
      rw [readKind_of_some hs]
      exact Kind.isUnknown_of_ofName? hs
  | _ => exact hold

/-- The words that are read are valid, and there are none without an array to read them from. -/
theorem isValid_readArgv {v : Json} (hv : Json.Legible d v) {old : List Bytes}
    (hold : ∀ word ∈ old, Utf8.isValid word = true) (hdepth : old ≠ [] → 0 < d)
    (first : Option JsonError) :
    let words := (((Json.texts wrong wrong v (some old)).run first).1).getD []
    (∀ word ∈ words, Utf8.isValid word = true) ∧ (words ≠ [] → 0 < d) := by
  have hgo (items : List Json) (hitems : ∀ v ∈ items, Json.Legible (d - 1) v) (old : List Bytes)
      (hold : ∀ word ∈ old, Utf8.isValid word = true) (first : Option JsonError) :
      ∀ word ∈ ((Json.texts.go wrong items old).run first).1, Utf8.isValid word = true := by
    induction items generalizing old first with
    | nil => exact List.forall_mem_nil _
    | cons v items ih =>
      obtain ⟨hv, hitems⟩ := List.forall_mem_cons.mp hitems
      have hhead : Utf8.isValid (old.headD []) = true := by
        cases old with
        | nil => exact Utf8.isValid_nil
        | cons s old => exact hold s List.mem_cons_self
      refine List.forall_mem_cons.mpr ⟨isValid_readText hv hhead first, ?_⟩
      exact ih hitems old.tail (fun word hm => hold word (List.mem_of_mem_tail hm)) _
  cases hv with
  | null => exact ⟨List.forall_mem_nil _, fun h => absurd rfl h⟩
  | array hitems => exact ⟨hgo _ hitems old hold first, fun _ => Nat.succ_pos _⟩
  | _ => exact ⟨hold, hdepth⟩

end

mutual

theorem Read.readInto {d : Nat} {t : Tree} (ht : Read d t) (v : Json) (hv : Json.Legible d v)
    (first : Option JsonError) : Read d ((readInto v t).run first).1 := by
  match v with
  | .null =>
    rw [Tree.readInto]
    exact .absent d
  | .object entries =>
    cases hv with
    | @object d _ hentries =>
      cases ht with
      | absent =>
        have hplain : Read (d + 1) (plain []) :=
          .node rfl (List.forall_mem_nil _) (fun h => absurd rfl h) (by simp [Redirections.texts, Redirections.none, Utf8.isValid_nil]) (.absent d)
            (.absent d)
        rw [Tree.readInto]
        exact hplain.readFields entries hentries first
      | node hkind hargv hdepth hfiles hleft hright =>
        rw [Tree.readInto]
        · exact (Read.node hkind hargv hdepth hfiles hleft hright).readFields entries hentries first
        · simp
  | .bool _ | .number _ | .string _ | .array _ =>
    rw [Tree.readInto] <;> first | exact ht | simp

theorem Read.readFields {d : Nat} {t : Tree} (ht : Read (d + 1) t) (entries : List (Bytes × Json))
    (hentries : ∀ entry ∈ entries, Json.Legible d entry.2) (first : Option JsonError) :
    Read (d + 1) ((readFields entries t).run first).1 := by
  match entries with
  | [] =>
    rw [Tree.readFields]
    exact ht
  | entry :: rest =>
    obtain ⟨hentry, hrest⟩ := List.forall_mem_cons.mp hentries
    rw [Tree.readFields]
    exact (ht.readField entry hentry first).readFields rest hrest _

theorem Read.readField {d : Nat} {t : Tree} (ht : Read (d + 1) t) (entry : Bytes × Json)
    (hentry : Json.Legible d entry.2) (first : Option JsonError) :
    Read (d + 1) ((readField entry t).run first).1 := by
  match entry with
  | (name, v) =>
    cases ht with
    | absent =>
      rw [Tree.readField]
      exact .absent _
    | @node _ kind argv files left right hkind hargv hdepth hfiles hleft hright =>
      have hwords := isValid_readArgv hentry hargv hdepth first
      have htexts := Redirections.forall_mem_texts.mp fun s hs =>
        isValid_readText hentry (hfiles s hs) first
      obtain ⟨hinput, houtput, happend, herror⟩ := Redirections.forall_mem_texts.mp hfiles
      have hnode {files : Redirections} (hfiles : ∀ s ∈ files.texts, Utf8.isValid s = true) :
          Read (d + 1) (Tree.node kind argv files left right) :=
        .node hkind hargv hdepth hfiles hleft hright
      rw [Tree.readField]
      split
      · exact hnode hfiles
      · exact .node (isUnknown_readKind v hkind first) hargv hdepth hfiles hleft hright
      · exact .node hkind hwords.1 hwords.2 hfiles hleft hright
      · refine hnode (Redirections.forall_mem_texts.mpr ?_)
        exact ⟨htexts.1, houtput, happend, herror⟩
      · refine hnode (Redirections.forall_mem_texts.mpr ?_)
        exact ⟨hinput, htexts.2.1, happend, herror⟩
      · refine hnode (Redirections.forall_mem_texts.mpr ?_)
        exact ⟨hinput, houtput, htexts.2.2.1, herror⟩
      · refine hnode (Redirections.forall_mem_texts.mpr ?_)
        exact ⟨hinput, houtput, happend, htexts.2.2.2⟩
      · exact .node hkind hargv hdepth hfiles (hleft.readInto v hentry first) hright
      · exact .node hkind hargv hdepth hfiles hleft (hright.readInto v hentry first)

end

theorem named_eq {t : Tree} (h : t.kinds.any Kind.isUnknown = false) : t.named = t := by
  induction t with
  | absent => rfl
  | node kind argv files left right ihl ihr =>
    rw [kinds, List.cons_append, List.any_cons, List.any_append] at h
    simp only [Bool.or_eq_false_iff] at h
    obtain ⟨hkind, hleft, hright⟩ := h
    rw [named, hkind, ihl hleft, ihr hright]
    rfl

theorem mapTexts_scrub_eq {t : Tree} (h : ∀ s ∈ t.texts, Utf8.isValid s = true) :
    t.mapTexts Utf8.scrub = t := by
  induction t with
  | absent => rfl
  | node kind argv files left right ihl ihr =>
    simp only [texts, List.forall_mem_append] at h
    obtain ⟨⟨⟨hargv, hfiles⟩, hleft⟩, hright⟩ := h
    obtain ⟨hinput, houtput, happend, herror⟩ := Redirections.forall_mem_texts.mp hfiles
    have hwords : argv.map Utf8.scrub = argv := by
      rw [List.map_congr_left fun s hs => Json.scrub_of_isValid (hargv s hs), List.map_id']
    rw [mapTexts, Redirections.mapTexts, hwords, ihl hleft, ihr hright, Json.scrub_of_isValid hinput,
      Json.scrub_of_isValid houtput, Json.scrub_of_isValid happend, Json.scrub_of_isValid herror]

/-- A tree of known kinds without stray bytes is read back. -/
theorem ofJson_write_of_known (markup : Bool) {t : Tree} (hdepth : t.toJson.depth ≤ Json.maxDepth)
    (hkinds : t.kinds.any Kind.isUnknown = false) (htexts : ∀ s ∈ t.texts, Utf8.isValid s = true) :
    ofJson (t.toJson.write markup) = .ok t := by
  have hnone : complaint t.kinds = none := by
    rw [complaint, Option.map_eq_none_iff, List.find?_eq_none]
    simpa using hkinds
  rw [ofJson_write markup hdepth, hnone, mapTexts_scrub_eq htexts]
  exact congrArg Except.ok (named_eq hkinds)

theorem read_of_ofJson {s : Bytes} {t : Tree} (h : ofJson s = .ok t) : Read Json.maxDepth t := by
  rw [ofJson] at h
  split at h
  · cases h
  · next v hv =>
    have hread := (Read.absent Json.maxDepth).readInto v (Json.legible_of_read? hv) none
    rw [Json.Decode.result] at h
    split at h
    · next t' hrun =>
      rw [hrun] at hread
      obtain rfl := Except.ok.inj h
      exact hread
    · cases h

/-- A tree goes through its JSON unchanged if its kinds are known, its texts have no stray bytes and its
JSON is not nested too deep to be read. The first kind in it that is not known is what reading complains
about. So what was read from any text can be written and read again. -/
theorem json_round_trip (markup : Bool) :
    (∀ t : Tree, t.toJson.depth ≤ Json.maxDepth → (∀ kind ∈ t.kinds, kind.isUnknown = false) →
      (∀ s ∈ t.texts, Utf8.isValid s = true) → ofJson (t.toJson.write markup) = .ok t) ∧
    (∀ t : Tree, t.toJson.depth ≤ Json.maxDepth → (∃ kind ∈ t.kinds, kind.isUnknown = true) →
      ∃ kind, t.kinds.find? Kind.isUnknown = some kind ∧
        ofJson (t.toJson.write markup) = .error (.unknownKind kind.name)) ∧
    ∀ (s : Bytes) (t : Tree), ofJson s = .ok t → ofJson (t.toJson.write markup) = .ok t := by
  refine ⟨fun t hdepth hkinds htexts => ?_, fun t hdepth hunknown => ?_, fun s t h => ?_⟩
  · exact ofJson_write_of_known markup hdepth (by simpa using hkinds) htexts
  · obtain ⟨kind, hfind⟩ := Option.isSome_iff_exists.mp (List.find?_isSome.mpr hunknown)
    refine ⟨kind, hfind, ?_⟩
    rw [ofJson_write markup hdepth, complaint, hfind]
    rfl
  · have hread := read_of_ofJson h
    exact ofJson_write_of_known markup hread.depth hread.kinds hread.texts

/-- A group with a redirection and no operand, and a word that needs escapes; then the same with a kind
that has no name inside. -/
theorem json_round_trip_group :
    let words : List Bytes := ["<", "a\n\"", "\u2028"]
    let inner := plain words { error := "e" }
    let t := node .subshell [] { append := "x" } inner absent
    let odd := node .subshell [] {} inner (node (.unknown 9) [] {} absent absent)
    ofJson (t.toJson.write true) = .ok t ∧
      ofJson (odd.toJson.write true) = .error (.unknownKind "kind(9)") ∧
      ofJson "\x7b\"Kind\":\"pipe\",\"left\":null,\"x\":1\x7d" = .ok (binary .pipe absent absent) ∧
      ofJson ((binary .pipe absent absent).toJson.write true) = .ok (binary .pipe absent absent) := by
  intro words inner t odd
  obtain ⟨hknown, hunknown, hagain⟩ := json_round_trip true
  have hok {x : Except JsonError Tree} {t : Tree} (h : x.toOption = some t) : x = .ok t := by
    cases x with
    | error e => cases h
    | ok t' => exact congrArg Except.ok (Option.some.inj h)
  have hpipe : ofJson "\x7b\"Kind\":\"pipe\",\"left\":null,\"x\":1\x7d" =
      .ok (binary .pipe absent absent) := hok (by decide +kernel)
  refine ⟨hknown t (by decide +kernel) (by decide) (by decide +kernel), ?_, hpipe, hagain _ _ hpipe⟩
  obtain ⟨kind, hfind, herror⟩ := hunknown odd (by decide +kernel)
    ⟨.unknown 9, by decide, rfl⟩
  obtain rfl := Option.some.inj hfind
  exact herror

end Tree

end CommandShell
