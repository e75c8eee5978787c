import CommandShell.Proofs.GroupedLine
import CommandShell.Proofs.PrintedTree

/-! Words and redirections in any order. The words of a command are read in their order, and of the
targets of each kind the last one counts, wherever the redirections stand. -/
namespace CommandShell.Line

/-- A redirection operator as it is written, with its number or without. -/
inductive Redirector where
  | input (numbered : Bool)
  | output (numbered : Bool)
  | append (numbered : Bool)
  | error
  deriving DecidableEq

namespace Redirector

def slot : Redirector → Slot
  | input _ => .input
  | output _ => .output
  | append _ => .append
  | error => .error

def operator : Redirector → Operator
  | input _ => .less
  | output _ | error => .great
  | append _ => .dgreat

def digit? : Redirector → Option UInt8
  | input numbered => if numbered then some 48 else none
  | output numbered | append numbered => if numbered then some 49 else none
  | error => some 50

def text (r : Redirector) : Bytes := r.digit?.toList ++ operatorText r.operator

/-- The digit is a lexeme of its own. -/
def lexemes (sp : Bool) (r : Redirector) : List Spaced :=
  match r.digit? with
  | none => [⟨sp, .operator r.operator⟩]
  | some d => [⟨sp, .bare [d] .number⟩, ⟨false, .operator r.operator⟩]

theorem operator_mem (r : Redirector) : r.operator ∈ [Operator.less, .great, .dgreat] := by
  cases r <;> simp [operator]

theorem digit_mem {r : Redirector} {d : UInt8} (h : r.digit? = some d) :
    d = 48 ∨ d = 49 ∨ d = 50 := by
  cases r <;> simp_all [digit?]

theorem slot_eq (r : Redirector) :
    redirectionSlot r.operator (r.digit?.map fun d => [d]) = some r.slot := by
  cases r with
  | input numbered | output numbered | append numbered => cases numbered <;> rfl
  | error => rfl

end Redirector

/-- A word, or a redirection with blanks in front of its target. Words and targets are written in
single quotes. -/
inductive Item where
  | word (s : Bytes)
  | redirect (r : Redirector) (blanks : Bytes) (target : Bytes)

namespace Item

def slot : Item → Slot
  | word _ => .argument
  | redirect r _ _ => r.slot

def value : Item → Bytes
  | word s => s
  | redirect _ _ target => target

def text : Item → Bytes
  | word s => quoted s
  | redirect r blanks target => r.text ++ (blanks ++ quoted target)

end Item

/-- Spaces and tabs. -/
def IsBlanks (s : Bytes) : Prop := ∀ b ∈ s, b = 32 ∨ b = 9

def Item.Proper : Item → Prop
  | .word s => Writable s
  | .redirect _ blanks target => IsBlanks blanks ∧ Writable target ∧ target ≠ []

/-- Items, each with the blanks in front of it. -/
def itemsText (items : List (Bytes × Item)) : Bytes := items.flatMap fun p => p.1 ++ p.2.text

/-- Items with blanks between them. -/
structure Separated (items : List (Bytes × Item)) : Prop where
  blanks : ∀ p ∈ items, IsBlanks p.1
  proper : ∀ p ∈ items, p.2.Proper
  apart : ∀ p ∈ items.tail, p.1 ≠ []

/-- The texts that go to a slot, in their order. -/
def valuesAt (slot : Slot) (items : List Item) : List Bytes :=
  (items.filter (·.slot = slot)).map Item.value

/-- The last target of each kind. -/
def lastTargets (items : List Item) : Redirections where
  input := (valuesAt .input items).getLastD []
  output := (valuesAt .output items).getLastD []
  append := (valuesAt .append items).getLastD []
  error := (valuesAt .error items).getLastD []

def commandOf (items : List Item) : Tree := .plain (valuesAt .argument items) (lastTargets items)

/-- Nothing that is kept has U+0081, and nothing at all has U+0080. -/
def IntactItems (items : List Item) : Prop :=
  (∀ item ∈ items, ¬ [0xC2, 0x80] <:+: item.value) ∧
    ∀ s ∈ valuesAt .argument items ++ (lastTargets items).texts, ¬ [0xC2, 0x81] <:+: s

/-! ### Lexemes -/

theorem scan_blanks {blanks : Bytes} (h : IsBlanks blanks) (w sp : Bool) (rest : Bytes) :
    scan w sp (marks false (blanks ++ rest)) =
      scan w (sp || !blanks.isEmpty) (marks false rest) := by
  induction blanks generalizing sp with
  | nil => simp
  | cons b blanks ih =>
    obtain ⟨hb, h⟩ := List.forall_mem_cons.mp h
    have hmarks : marks false (b :: blanks ++ rest) = .byte b :: marks false (blanks ++ rest) := by
      rcases hb with rfl | rfl <;>
        exact marks_byte (by decide) (by simp) (by simp) (by simp)
    have hblank : isBlank b = true := by rcases hb with rfl | rfl <;> rfl
    rw [hmarks, scan_blank w sp hblank, ih h]
    simp

/-- A redirection operator ends where its target or the blanks before it start. -/
theorem Redirector.scan (r : Redirector) {b : UInt8} (hb : b ∈ [32, 9, 39]) (rest : Bytes)
    (w sp : Bool) :
    Line.scan w sp (marks false (r.text ++ b :: rest)) =
      (Line.scan false false (marks false (b :: rest))).map (r.lexemes sp ++ ·) := by
  have hoperator : scanOperator (marks false (operatorText r.operator ++ b :: rest)) =
      some (r.operator, marks false (b :: rest)) := by
    simp only [List.mem_cons, List.not_mem_nil, or_false] at hb
    rcases hb with rfl | rfl | rfl <;> cases r <;> rfl
  rw [text, lexemes]
  cases hd : r.digit? with
  | none => exact scan_operator w sp hoperator
  | some d =>
    obtain ⟨c, more, hmore, hc⟩ : ∃ c more,
        marks false (operatorText r.operator ++ b :: rest) = .byte c :: more ∧
          (c = 60 ∨ c = 62) := by
      cases r with
      | input | output | error => exact ⟨_, _, rfl, by decide⟩
      | append => exact ⟨_, _, rfl, by decide⟩
    have hmarks : marks false ((some d).toList ++ operatorText r.operator ++ b :: rest) =
        .byte d :: .byte c :: more := by
      rw [← hmore]
      rcases digit_mem hd with rfl | rfl | rfl <;> rfl
    rw [hmore] at hoperator
    rw [hmarks, scan_digit w sp (digit_mem hd) hc hoperator]

/-- The lexemes of a quoted text. -/
structure Hears (s : Bytes) (xs : List Lexeme) : Prop where
  parts : WordParts xs
  value : wordOf xs = heard true s

theorem marks_quoted (s tail : Bytes) :
    marks false (quoted s ++ tail) = .byte 39 :: marks false (quotedBody s ++ 39 :: tail) := by
  simp [quoted_eq, marks]

theorem scan_quotedText {s : Bytes} (h : Writable s) (closer : ¬ [0xC2, 0x80] <:+: s) :
    ∃ xs, Hears s xs ∧ ∀ w sp tail, scan w sp (marks false (quoted s ++ tail)) =
      (scan true false (marks false tail)).map (unbroken sp xs ++ ·) := by
  obtain ⟨xs, hspelled, hvalue⟩ := spelled_quoted h closer
  refine ⟨xs, ⟨hspelled.parts, hvalue⟩, fun w sp tail => ?_⟩
  rw [marks_quoted, hspelled.scan]

/-- The lexemes of an item, given those of its text. -/
def Item.lexemes (sp : Bool) (xs : List Lexeme) : Item → List Spaced
  | .word _ => unbroken sp xs
  | .redirect r blanks _ => r.lexemes sp ++ unbroken (!blanks.isEmpty) xs

theorem scan_redirector (r : Redirector) {blanks : Bytes} (hb : IsBlanks blanks) (target : Bytes)
    (w sp : Bool) (tail : Bytes) :
    scan w sp (marks false ((Item.redirect r blanks target).text ++ tail)) =
      (scan false (!blanks.isEmpty) (marks false (quoted target ++ tail))).map
        (r.lexemes sp ++ ·) := by
  have htext : (Item.redirect r blanks target).text ++ tail =
      r.text ++ (blanks ++ (quoted target ++ tail)) := by simp [Item.text]
  obtain ⟨b, rest, he, hmem⟩ : ∃ b rest, blanks ++ (quoted target ++ tail) = b :: rest ∧
      b ∈ [32, 9, 39] := by
    cases blanks with
    | nil => exact ⟨39, _, rfl, by decide⟩
    | cons b blanks => exact ⟨b, _, rfl, by simpa using (hb b List.mem_cons_self).imp_right .inl⟩
  rw [htext, he, r.scan hmem, ← he, scan_blanks hb, Bool.false_or]

theorem scan_item {item : Item} (h : item.Proper) (closer : ¬ [0xC2, 0x80] <:+: item.value) :
    ∃ xs, Hears item.value xs ∧ ∀ w sp tail, scan w sp (marks false (item.text ++ tail)) =
      (scan true false (marks false tail)).map (item.lexemes sp xs ++ ·) := by
  cases item with
  | word s => exact scan_quotedText h closer
  | redirect r blanks target =>
    obtain ⟨hb, hw, -⟩ := h
    obtain ⟨xs, hears, hscan⟩ := scan_quotedText hw closer
    refine ⟨xs, hears, fun w sp tail => ?_⟩
    rw [scan_redirector r hb, hscan, Option.map_map]
    congr 1
    funext zs
    simp [Item.lexemes]

theorem scan_item_of_closer {item : Item} (h : item.Proper) (closer : [0xC2, 0x80] <:+: item.value)
    (w sp : Bool) (tail : Bytes) : scan w sp (marks false (item.text ++ tail)) = none := by
  cases item with
  | word s =>
    rw [Item.text, marks_quoted]
    exact scan_quoted_of_closer h closer w sp tail
  | redirect r blanks target =>
    obtain ⟨hb, hw, -⟩ := h
    rw [scan_redirector r hb, marks_quoted, scan_quoted_of_closer hw closer]
    rfl

/-- The lexemes of items. -/
inductive ItemsLexed : Bool → List (Bytes × Item) → List Spaced → Prop
  | none (sp : Bool) : ItemsLexed sp [] []
  | more {sp : Bool} {blanks : Bytes} {item : Item} {items : List (Bytes × Item)}
      {xs : List Lexeme} {zs : List Spaced} (hears : Hears item.value xs)
      (rest : ItemsLexed false items zs) :
      ItemsLexed sp ((blanks, item) :: items) (item.lexemes (sp || !blanks.isEmpty) xs ++ zs)

theorem scan_items_cons {blanks : Bytes} (hb : IsBlanks blanks) (item : Item)
    (items : List (Bytes × Item)) (w sp : Bool) :
    scan w sp (marks false (itemsText ((blanks, item) :: items))) =
      scan w (sp || !blanks.isEmpty) (marks false (item.text ++ itemsText items)) := by
  rw [itemsText, List.flatMap_cons, List.append_assoc, scan_blanks hb]
  rfl

theorem scan_items {items : List (Bytes × Item)}
    (h : ∀ p ∈ items, IsBlanks p.1 ∧ p.2.Proper)
    (closer : ∀ p ∈ items, ¬ [0xC2, 0x80] <:+: p.2.value) (w sp : Bool) :
    ∃ zs, ItemsLexed sp items zs ∧ scan w sp (marks false (itemsText items)) = some zs := by
  induction items generalizing w sp with
  | nil => exact ⟨[], .none sp, scan.eq_1 w sp⟩
  | cons p items ih =>
    obtain ⟨blanks, item⟩ := p
    obtain ⟨⟨hb, hitem⟩, h⟩ := List.forall_mem_cons.mp h
    obtain ⟨hcloser, closer⟩ := List.forall_mem_cons.mp closer
    obtain ⟨xs, hears, hscan⟩ := scan_item hitem hcloser
    obtain ⟨zs, hlexed, hrest⟩ := ih h closer true false
    refine ⟨_, .more hears hlexed, ?_⟩
    rw [scan_items_cons hb, hscan, hrest]
    rfl

theorem scan_items_of_closer {items : List (Bytes × Item)}
    (h : ∀ p ∈ items, IsBlanks p.1 ∧ p.2.Proper)
    (closer : ∃ p ∈ items, [0xC2, 0x80] <:+: p.2.value) (w sp : Bool) :
    scan w sp (marks false (itemsText items)) = none := by
  induction items generalizing w sp with
  | nil => simp at closer
  | cons p items ih =>
    obtain ⟨blanks, item⟩ := p
    obtain ⟨⟨hb, hitem⟩, h⟩ := List.forall_mem_cons.mp h
    rw [scan_items_cons hb]
    by_cases hcloser : [0xC2, 0x80] <:+: item.value
    · exact scan_item_of_closer hitem hcloser ..
    · have hmore : ∃ p ∈ items, [0xC2, 0x80] <:+: p.2.value := by
        obtain ⟨p, hp, hclose⟩ := closer
        rcases List.mem_cons.mp hp with rfl | hp
        · exact absurd hclose hcloser
        · exact ⟨p, hp, hclose⟩
      obtain ⟨xs, -, hscan⟩ := scan_item hitem hcloser
      rw [hscan, ih h hmore]
      rfl

/-! ### Reading -/

/-- A place for the next item, behind these words or this group and these redirections. -/
structure Stage.Ready (s : Stage) (sp : Bool) (base : Base) (files : Redirections) : Prop where
  part : ∀ v, s.word sp (.part v) = startItem base files (.part v)
  number : ∀ n, s.word sp (.bare n .number) = some (.reading base files (.number n))
  redirect : ∀ {op slot}, redirectionSlot op none = some slot →
    s.redirect op = some (.reading base files (.target slot))

theorem Stage.ready_idle (sp : Bool) : Stage.idle.Ready sp (.words []) .none where
  part _ := rfl
  number _ := rfl
  redirect h := by simp [Stage.redirect, h]

theorem Stage.Holds.ready {s : Stage} {base : Base} {files : Redirections} (h : s.Holds base files) :
    s.Ready true base files where
  part _ := h.startItem
  number _ := h.startItem
  redirect hop := h.redirect hop

theorem Stage.ready_group (sp : Bool) (inner : Tree) :
    Stage.Ready (.reading (.group inner) .none .rest) sp (.group inner) .none where
  part _ := rfl
  number _ := rfl
  redirect h := by simp [Stage.redirect, settle, h]

section
variable (lv : Level) (outer : List Level) {s : Stage} {sp : Bool} {base : Base}
  {files : Redirections}

theorem run_redirector (hs : s.Ready sp base files) (r : Redirector) :
    (inStage lv outer s).run (r.lexemes sp) =
      some (inStage lv outer (.reading base files (.target r.slot))) := by
  have hslot := r.slot_eq
  rw [Redirector.lexemes]
  cases hd : r.digit? with
  | none =>
    rw [hd] at hslot
    rw [State.run, step_inStage_redirect lv outer sp r.operator_mem (hs.redirect hslot)]
    rfl
  | some d =>
    rw [hd] at hslot
    have hredirect : Stage.redirect r.operator (.reading base files (.number [d])) =
        some (.reading base files (.target r.slot)) := by
      change (redirectionSlot r.operator (some [d])).map _ = _
      rw [show redirectionSlot r.operator (some [d]) = some r.slot from hslot]
      rfl
    rw [State.run, step_inStage lv outer rfl (hs.number [d]), Option.bind_some, State.run,
      step_inStage_redirect lv outer false r.operator_mem hredirect]
    rfl

/-- An item is read into its slot. -/
theorem run_item (hs : s.Ready sp base files) {item : Item} {xs : List Lexeme}
    (hears : Hears item.value xs) (hbase : item.slot = .argument → ∃ argv, base = .words argv) :
    (inStage lv outer s).run (item.lexemes sp xs) =
      some (inStage lv outer (.reading base files (.word item.slot (heard true item.value)))) := by
  rw [← hears.value]
  cases item with
  | word t =>
    obtain ⟨argv, rfl⟩ := hbase rfl
    exact run_word lv outer hears.parts hs.part
  | redirect r blanks target =>
    rw [Item.lexemes, State.run_append, run_redirector lv outer hs]
    exact run_word lv outer hears.parts fun _ => rfl

/-- The words behind those of a base. -/
def Base.grow : Base → List Bytes → Base
  | words argv, texts => words (argv ++ texts)
  | group inner, _ => group inner

/-- What is read of items in front of others. -/
def readBase (base : Base) (items : List Item) : Base :=
  base.grow ((valuesAt .argument items).map (heard true))

def readTargets (items : List Item) : Redirections := (lastTargets items).mapTexts (heard true)

/-- A finished item counts as the last one. -/
theorem settle_item (base : Base) (items : List Item) {item : Item}
    (hbase : item.slot = .argument → ∃ argv, base = .words argv) (hitem : item.Proper) :
    settle (readBase base items) (readTargets items) (.word item.slot (heard true item.value)) =
      some (readBase base (items ++ [item]), readTargets (items ++ [item])) := by
  cases item with
  | word s =>
    obtain ⟨argv, rfl⟩ := hbase rfl
    simp [settle, readBase, readTargets, Base.grow, valuesAt, lastTargets, Item.slot, Item.value]
  | redirect r blanks target =>
    have hne := heard_ne_nil true hitem.2.2
    cases r <;> simp [settle, setTarget, readBase, readTargets, Redirections.mapTexts, valuesAt,
      lastTargets, Item.slot, Item.value, Redirector.slot, hne]

theorem run_next {item : Item} {before : List Item} {xs : List Lexeme}
    (hs : s.Ready sp (readBase base before) (readTargets before)) (hears : Hears item.value xs)
    (hbase : item.slot = .argument → ∃ argv, base = .words argv) (hitem : item.Proper) :
    ∃ s', (inStage lv outer s).run (item.lexemes sp xs) = some (inStage lv outer s') ∧
      s'.Holds (readBase base (before ++ [item])) (readTargets (before ++ [item])) := by
  refine ⟨_, run_item lv outer hs hears fun hword => ?_, _, _, _, rfl,
    settle_item base before hbase hitem⟩
  obtain ⟨argv, rfl⟩ := hbase hword
  exact ⟨_, rfl⟩

/-- Items with blanks in front of each are read one behind the other. -/
theorem run_items {items : List (Bytes × Item)} {before : List Item} {zs : List Spaced}
    (h : ItemsLexed false items zs) (apart : ∀ p ∈ items, p.1 ≠ [])
    (proper : ∀ p ∈ items, p.2.Proper)
    (hbase : ∀ p ∈ items, p.2.slot = .argument → ∃ argv, base = .words argv)
    (hs : s.Holds (readBase base before) (readTargets before)) :
    ∃ s', (inStage lv outer s).run zs = some (inStage lv outer s') ∧
      s'.Holds (readBase base (before ++ items.map Prod.snd))
        (readTargets (before ++ items.map Prod.snd)) := by
  induction items generalizing s before zs with
  | nil =>
    cases h
    exact ⟨s, rfl, by simpa using hs⟩
  | cons p items ih =>
    obtain ⟨hp, hapart⟩ := List.forall_mem_cons.mp apart
    obtain ⟨hitem, hproper⟩ := List.forall_mem_cons.mp proper
    obtain ⟨hfirst, hmore⟩ := List.forall_mem_cons.mp hbase
    cases h with
    | @more _ blanks item _ xs zs hears hlexed =>
      have hblanks : (false || !blanks.isEmpty) = true := by simpa using hp
      rw [hblanks]
      obtain ⟨mid, hmid, hholds⟩ := run_next lv outer hs.ready hears hfirst hitem
      obtain ⟨s', hrun, hs'⟩ := ih hlexed hapart hproper hmore hholds
      refine ⟨s', ?_, by simpa using hs'⟩
      rw [State.run_append, hmid]
      exact hrun

/-- The first item may stand without blanks. -/
theorem run_separated {p : Bytes × Item} {items : List (Bytes × Item)} {zs : List Spaced}
    (h : ItemsLexed sp (p :: items) zs) (separated : Separated (p :: items))
    (hbase : ∀ p' ∈ p :: items, p'.2.slot = .argument → ∃ argv, base = .words argv)
    (hs : s.Ready (sp || !p.1.isEmpty) (readBase base []) (readTargets [])) :
    ∃ s', (inStage lv outer s).run zs = some (inStage lv outer s') ∧
      s'.Holds (readBase base ((p :: items).map Prod.snd))
        (readTargets ((p :: items).map Prod.snd)) := by
  obtain ⟨hitem, hproper⟩ := List.forall_mem_cons.mp separated.proper
  obtain ⟨hfirst, hmore⟩ := List.forall_mem_cons.mp hbase
  cases h with
  | @more _ blanks item _ xs zs hears hlexed =>
    obtain ⟨mid, hmid, hholds⟩ := run_next lv outer hs hears hfirst hitem
    obtain ⟨s', hrun, hs'⟩ := run_items lv outer hlexed separated.apart hproper hmore hholds
    refine ⟨s', ?_, hs'⟩
    rw [State.run_append, hmid]
    exact hrun

end

/-! ### Lines -/

theorem isValid_quoted_append {s : Bytes} (h : Writable s) (tail : Bytes) :
    Utf8.isValid (quoted s ++ tail) = Utf8.isValid tail := by
  have htext : quoted s ++ tail = 39 :: (quotedBody s ++ 39 :: tail) := by simp [quoted_eq]
  rw [htext, Utf8.isValid_ascii _ (by decide), Utf8.isValid_append _ _ (by decide),
    Utf8.isValid_ascii _ (by decide), isValid_quotedBody, h.valid, Bool.true_and]

theorem IsBlanks.ascii {s : Bytes} (h : IsBlanks s) : ∀ b ∈ s, b < 0x80 := by
  intro b hb
  rcases h b hb with rfl | rfl <;> decide

theorem isValid_itemsText {items : List (Bytes × Item)}
    (h : ∀ p ∈ items, IsBlanks p.1 ∧ p.2.Proper) : Utf8.isValid (itemsText items) = true := by
  induction items with
  | nil => exact Utf8.isValid_nil
  | cons p items ih =>
    obtain ⟨blanks, item⟩ := p
    obtain ⟨⟨hb, hitem⟩, hrest⟩ := List.forall_mem_cons.mp h
    have htext : itemsText ((blanks, item) :: items) =
        blanks ++ (item.text ++ itemsText items) := List.append_assoc ..
    rw [htext, Utf8.isValid_append_of_ascii hb.ascii]
    cases item with
    | word s => rw [Item.text, isValid_quoted_append hitem, ih hrest]
    | redirect r spaces target =>
      obtain ⟨hspaces, hw, -⟩ := hitem
      have hr : ∀ b ∈ r.text, b < 0x80 := by
        cases r with
        | input numbered | output numbered | append numbered => cases numbered <;> decide +kernel
        | error => decide +kernel
      rw [Item.text, List.append_assoc, Utf8.isValid_append_of_ascii hr, List.append_assoc,
        Utf8.isValid_append_of_ascii hspaces.ascii, isValid_quoted_append hw, ih hrest]

theorem lineMarks_itemsText {items : List (Bytes × Item)}
    (h : ∀ p ∈ items, IsBlanks p.1 ∧ p.2.Proper) :
    lineMarks (itemsText items) = marks false (itemsText items) :=
  if_pos (isValid_itemsText h)

theorem Separated.items {items : List (Bytes × Item)} (h : Separated items) :
    ∀ p ∈ items, IsBlanks p.1 ∧ p.2.Proper := fun p hp => ⟨h.blanks p hp, h.proper p hp⟩

theorem read?_items {items : List (Bytes × Item)} (h : Separated items)
    (words : valuesAt .argument (items.map Prod.snd) ≠ [])
    (closer : ∀ p ∈ items, ¬ [0xC2, 0x80] <:+: p.2.value) :
    read? (itemsText items) = some ((commandOf (items.map Prod.snd)).mapTexts (heard true)) := by
  cases items with
  | nil => exact absurd rfl words
  | cons p items =>
    obtain ⟨zs, hlexed, hscan⟩ := scan_items h.items closer false false
    have start : Stage.idle.Ready (false || !p.1.isEmpty) (readBase (.words []) [])
        (readTargets []) := Stage.ready_idle _
    obtain ⟨s, hrun, hs⟩ := run_separated {} [] hlexed h (fun _ _ _ => ⟨[], rfl⟩) start
    obtain ⟨word, others, hwords⟩ := List.exists_cons_of_ne_nil words
    refine read?_eq_some_iff.mpr ⟨zs, inStage {} [] s, ?_, hrun, tree?_inStage ?_⟩
    · rw [lexemes_eq_scan, lineMarks_itemsText h.items, hscan]
    · rw [readBase, hwords] at hs
      rw [commandOf, hwords]
      exact hs.tree?_words

theorem read?_items_of_closer {items : List (Bytes × Item)} (h : Separated items)
    (closer : ∃ p ∈ items, [0xC2, 0x80] <:+: p.2.value) : read? (itemsText items) = none := by
  have hlex : lexemes (itemsText items) = none := by
    rw [lexemes_eq_scan, lineMarks_itemsText h.items]
    exact scan_items_of_closer h.items closer false false
  rw [read?, hlex]
  rfl

section
variable {a : Bytes} {inner : Tree} (ha : parse a = .ok inner)
  (hgroup : parse (grouped a) = .ok (.subshell inner)) {items : List (Bytes × Item)}
  (h : Separated items)
include ha hgroup h

theorem read?_group_items (words : valuesAt .argument (items.map Prod.snd) = [])
    (closer : ∀ p ∈ items, ¬ [0xC2, 0x80] <:+: p.2.value) :
    read? (grouped a ++ itemsText items) =
      some (.subshell inner (readTargets (items.map Prod.snd))) := by
  obtain ⟨front, hlex, hrun⟩ := run_grouped ha hgroup
  cases items with
  | nil =>
    change read? (grouped a ++ []) = _
    rw [List.append_nil]
    exact parse_eq_ok_iff.mp hgroup
  | cons p items =>
    obtain ⟨zs, hlexed, hscan⟩ := scan_items h.items closer false false
    have start : Stage.Ready (.reading (.group inner) .none .rest) (false || !p.1.isEmpty)
        (readBase (.group inner) []) (readTargets []) := Stage.ready_group _ inner
    have notWord : ∀ p' ∈ p :: items, p'.2.slot ≠ .argument := by
      intro p' hp' hslot
      have hmem : p'.2.value ∈ valuesAt .argument ((p :: items).map Prod.snd) :=
        List.mem_map.mpr ⟨p'.2, List.mem_filter.mpr ⟨List.mem_map_of_mem hp', by simpa using hslot⟩,
          rfl⟩
      rw [words] at hmem
      cases hmem
    obtain ⟨s, hrun', hs⟩ := run_separated {} [] hlexed h
      (fun p' hp' hslot => absurd hslot (notWord p' hp')) start
    refine read?_eq_some_iff.mpr ⟨front ++ zs, inStage {} [] s, ?_, ?_, tree?_inStage hs.tree?_group⟩
    · rw [hlex, lineMarks_itemsText h.items, hscan]
      rfl
    · rw [State.run_append, hrun]
      exact hrun'

theorem read?_group_items_of_closer (closer : ∃ p ∈ items, [0xC2, 0x80] <:+: p.2.value) :
    read? (grouped a ++ itemsText items) = none := by
  obtain ⟨front, hlex, -⟩ := run_grouped ha hgroup
  rw [read?, hlex, lineMarks_itemsText h.items, scan_items_of_closer h.items closer]
  rfl

end

/-- Two neighbours of different kinds have changed places. -/
def Swapped (items others : List Item) : Prop :=
  ∃ front x y back, x.slot ≠ y.slot ∧ items = front ++ x :: y :: back ∧
    others = front ++ y :: x :: back

namespace Swapped
variable {items others : List Item} (h : Swapped items others)
include h

theorem valuesAt_eq (slot : Slot) : valuesAt slot others = valuesAt slot items := by
  obtain ⟨front, x, y, back, hslots, rfl, rfl⟩ := h
  have hpair : (y :: x :: back).filter (·.slot = slot) = (x :: y :: back).filter (·.slot = slot) := by
    by_cases hx : x.slot = slot
    · have hy : y.slot ≠ slot := fun hy => hslots (hx.trans hy.symm)
      simp [hx, hy]
    · simp [List.filter_cons, hx]
  rw [valuesAt, valuesAt, List.filter_append, List.filter_append, hpair]

theorem lastTargets_eq : lastTargets others = lastTargets items := by
  simp only [lastTargets, h.valuesAt_eq]

theorem commandOf_eq : commandOf others = commandOf items := by
  rw [commandOf, commandOf, h.valuesAt_eq, h.lastTargets_eq]

theorem mem_iff (item : Item) : item ∈ others ↔ item ∈ items := by
  obtain ⟨front, x, y, back, -, rfl, rfl⟩ := h
  simp only [List.mem_append, List.mem_cons, or_left_comm]

end Swapped

/-- A line that is read unless an item has U+0080. -/
theorem parse_items_iff {line : Bytes} {items : List (Bytes × Item)} {read t : Tree}
    (free : (∀ p ∈ items, ¬ [0xC2, 0x80] <:+: p.2.value) → read? line = some read)
    (closed : (∃ p ∈ items, [0xC2, 0x80] <:+: p.2.value) → read? line = none) :
    parse line = .ok t ↔
      (∀ item ∈ items.map Prod.snd, ¬ [0xC2, 0x80] <:+: item.value) ∧ read = t := by
  rw [parse_eq_ok_iff, List.forall_mem_map]
  by_cases closer : ∃ p ∈ items, [0xC2, 0x80] <:+: p.2.value
  · obtain ⟨p, hp, hclose⟩ := closer
    rw [closed ⟨p, hp, hclose⟩]
    exact iff_of_false (by simp) fun hboth => hboth.1 p hp hclose
  · have hfree : ∀ p ∈ items, ¬ [0xC2, 0x80] <:+: p.2.value := fun p hp hclose =>
      closer ⟨p, hp, hclose⟩
    rw [free hfree, Option.some.injEq, and_iff_right hfree]

theorem commandOf_eq_self_iff (items : List Item) :
    (commandOf items).mapTexts (heard true) = commandOf items ↔
      ∀ s ∈ valuesAt .argument items ++ (lastTargets items).texts, ¬ [0xC2, 0x81] <:+: s := by
  have htexts : (commandOf items).texts = valuesAt .argument items ++ (lastTargets items).texts := by
    simp [commandOf, Tree.plain, Tree.texts]
  have hsame := @Tree.mapTexts_eq_iff (heard true) id (commandOf items)
  rw [Tree.mapTexts_id, htexts] at hsame
  rw [hsame]
  exact ⟨fun h s hs => (heard_eq_self_iff true s).mp (h s hs),
    fun h s hs => (heard_eq_self_iff true s).mpr (h s hs)⟩

/-- Redirections may stand anywhere. A line of words and redirections is a command with the words in
their order and the last target of each kind, and redirections behind a group give it the last target
of each kind, exactly if none of the texts has a control character that the lexer takes for a mark of
its own; only U+0081 in a target that does not count does no harm. In any case neighbours of different
kinds may change places. -/
theorem parse_interleaved {items : List (Bytes × Item)} (h : Separated items) :
    (valuesAt .argument (items.map Prod.snd) ≠ [] →
      (parse (itemsText items) = .ok (commandOf (items.map Prod.snd)) ↔
        IntactItems (items.map Prod.snd)) ∧
      ∀ others, Separated others → Swapped (items.map Prod.snd) (others.map Prod.snd) →
        ∀ t, parse (itemsText others) = .ok t ↔ parse (itemsText items) = .ok t) ∧
    (valuesAt .argument (items.map Prod.snd) = [] →
      ∀ a inner, parse a = .ok inner → parse (grouped a) = .ok (.subshell inner) →
        (parse (grouped a ++ itemsText items) =
            .ok (.subshell inner (lastTargets (items.map Prod.snd))) ↔
          IntactItems (items.map Prod.snd)) ∧
        ∀ others, Separated others → Swapped (items.map Prod.snd) (others.map Prod.snd) →
          ∀ t, parse (grouped a ++ itemsText others) = .ok t ↔
            parse (grouped a ++ itemsText items) = .ok t) := by
  constructor
  · intro words
    have hparse (t : Tree) := @parse_items_iff _ _ _ t (read?_items h words)
      (read?_items_of_closer h)
    refine ⟨?_, ?_⟩
    · rw [hparse, IntactItems, commandOf_eq_self_iff]
    · intro others separated swapped t
      have hwords : valuesAt .argument (others.map Prod.snd) ≠ [] := by
        rwa [swapped.valuesAt_eq]
      rw [hparse, parse_items_iff (read?_items separated hwords) (read?_items_of_closer separated),
        swapped.commandOf_eq]
      simp only [swapped.mem_iff]
  · intro words a inner ha hgroup
    have hparse (t : Tree) := @parse_items_iff _ _ _ t (read?_group_items ha hgroup h words)
      (read?_group_items_of_closer ha hgroup h)
    refine ⟨?_, ?_⟩
    · rw [hparse, IntactItems, ← commandOf_eq_self_iff]
      simp [commandOf, words, Tree.plain, Tree.subshell, Tree.mapTexts, readTargets]
    · intro others separated swapped t
      have hwords : valuesAt .argument (others.map Prod.snd) = [] := by
        rwa [swapped.valuesAt_eq]
      rw [hparse, parse_items_iff (read?_group_items ha hgroup separated hwords)
        (read?_group_items_of_closer ha hgroup separated), readTargets, readTargets,
        swapped.lastTargets_eq]
      simp only [swapped.mem_iff]

theorem parse_interleaved_mixed :
    parse "2> 'e' 'a b' 1>'o'  <'i' '' >>'x' 0<'j'" =
      .ok (.plain ["a b", ""] { input := "j", output := "o", append := "x", error := "e" }) ∧
    parse "(c; d)>'o' 2>'e' >'p'" =
      .ok (.subshell (.sequence (.plain ["c"]) (.plain ["d"])) { output := "p", error := "e" }) := by
  have writable (s : Bytes) (hs : s ∈ (["e", "a b", "o", "i", "", "x", "j", "p"] : List Bytes)) :
      Writable s := by
    refine ⟨?_, ?_, ?_⟩ <;> revert s
    · exact List.all_eq_true.mp (by decide +kernel)
    · decide
    · decide
  have command : Separated [([], .redirect .error " " "e"), (" ", .word "a b"),
      (" ", .redirect (.output true) [] "o"), ("  ", .redirect (.input false) [] "i"),
      (" ", .word ""), (" ", .redirect (.append false) [] "x"),
      (" ", .redirect (.input true) [] "j")] := by
    refine ⟨?_, ?_, ?_⟩
    · simp only [IsBlanks]
      decide +kernel
    · simp [Item.Proper, IsBlanks, writable]
      decide +kernel
    · decide +kernel
  have group : Separated [([], .redirect (.output false) [] "o"), (" ", .redirect .error [] "e"),
      (" ", .redirect (.output false) [] "p")] := by
    refine ⟨?_, ?_, ?_⟩
    · simp only [IsBlanks]
      decide +kernel
    · simp [Item.Proper, IsBlanks, writable]
      decide +kernel
    · decide +kernel
  have inner : parse "c; d" = .ok (.sequence (.plain ["c"]) (.plain ["d"])) :=
    parse_eq_ok_iff.mpr (by decide +kernel)
  have alone : parse (grouped "c; d") =
      .ok (.subshell (.sequence (.plain ["c"]) (.plain ["d"]))) :=
    parse_eq_ok_iff.mpr (by decide +kernel)
  refine ⟨((parse_interleaved command).1 (by decide +kernel)).1.mpr
    ⟨by decide +kernel, by decide +kernel⟩, ?_⟩
  exact ((parse_interleaved group).2 rfl _ _ inner alone).1.mpr
    ⟨by decide +kernel, by decide +kernel⟩

end CommandShell.Line
