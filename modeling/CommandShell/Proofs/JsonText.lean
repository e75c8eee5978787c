import CommandShell.Proofs.JsonScalar

/-! Compact JSON text. A written value is read back whatever follows it, only with replacement
characters in place of stray bytes; no shorter part of an object's text is a value, and there is no
newline in it. -/
namespace CommandShell.Json

mutual

/-- A value with the stray bytes of its texts replaced. -/
def scrub : Json → Json
  | .string s => .string (Utf8.scrub s)
  | .array items => .array (scrubItems items)
  | .object fields => .object (scrubFields fields)
  | v => v

def scrubItems : List Json → List Json
  | [] => []
  | v :: rest => scrub v :: scrubItems rest

def scrubFields : List (Bytes × Json) → List (Bytes × Json)
  | [] => []
  | (name, v) :: rest => (Utf8.scrub name, scrub v) :: scrubFields rest

end

@[simp] theorem scrub_string (s : Bytes) : scrub (.string s) = .string (Utf8.scrub s) := by
  rw [scrub]

@[simp] theorem scrub_array (items : List Json) : scrub (.array items) = .array (items.map scrub) := by
  have hitems : scrubItems items = items.map scrub := by
    induction items with
    | nil => rw [scrubItems, List.map_nil]
    | cons v items ih => rw [scrubItems, ih, List.map_cons]
  rw [scrub, hitems]

/-- A field of an object with the stray bytes of its name and its value replaced. -/
def scrubField (field : Bytes × Json) : Bytes × Json := (Utf8.scrub field.1, field.2.scrub)

@[simp] theorem scrub_object (fields : List (Bytes × Json)) :
    scrub (.object fields) = .object (fields.map scrubField) := by
  have hfields : scrubFields fields = fields.map scrubField := by
    induction fields with
    | nil => rw [scrubFields, List.map_nil]
    | cons field fields ih => rw [scrubFields, ih, List.map_cons, scrubField]
  rw [scrub, hfields]

/-- Values of texts and whole numbers, in containers nested up to a depth. -/
inductive Nested : Nat → Json → Prop where
  | null (d : Nat) : Nested d .null
  | bool (d : Nat) (b : Bool) : Nested d (.bool b)
  | int (d : Nat) (n : Int) : Nested d (.int n)
  | string (d : Nat) (s : Bytes) : Nested d (.string s)
  | array {d : Nat} {items : List Json} (h : ∀ v ∈ items, Nested d v) : Nested (d + 1) (.array items)
  | object {d : Nat} {fields : List (Bytes × Json)} (h : ∀ field ∈ fields, Nested d field.2) :
      Nested (d + 1) (.object fields)

/-- Values nested up to a depth whose texts have no stray bytes. -/
structure Proper (d : Nat) (v : Json) : Prop where
  nested : Nested d v
  clean : v.scrub = v

namespace Proper

theorem null (d : Nat) : Proper d .null := ⟨.null d, by rw [scrub] <;> simp⟩

theorem bool (d : Nat) (b : Bool) : Proper d (.bool b) := ⟨.bool d b, by rw [scrub] <;> simp⟩

theorem int (d : Nat) (n : Int) : Proper d (.int n) := by
  refine ⟨.int d n, ?_⟩
  rw [Json.int, scrub] <;> simp

theorem string (d : Nat) {s : Bytes} (h : Utf8.isValid s = true) : Proper d (.string s) := by
  refine ⟨.string d s, ?_⟩
  rw [scrub_string, scrub_of_isValid h]

theorem array {d : Nat} {items : List Json} (h : ∀ v ∈ items, Proper d v) :
    Proper (d + 1) (.array items) := by
  refine ⟨.array fun v hv => (h v hv).nested, ?_⟩
  rw [scrub_array, List.map_congr_left fun v hv => (h v hv).clean, List.map_id']

theorem object {d : Nat} {fields : List (Bytes × Json)}
    (hn : ∀ field ∈ fields, Utf8.isValid field.1 = true) (hv : ∀ field ∈ fields, Proper d field.2) :
    Proper (d + 1) (.object fields) := by
  have hfield : ∀ field ∈ fields, scrubField field = field := by
    intro field hf
    rw [scrubField, scrub_of_isValid (hn field hf), (hv field hf).clean]
  refine ⟨.object fun field hf => (hv field hf).nested, ?_⟩
  rw [scrub_object, List.map_congr_left hfield, List.map_id']

end Proper

@[simp] theorem scrub_int (n : Int) : (Json.int n).scrub = .int n := (Proper.int 0 n).clean

@[simp] theorem scrub_bool (b : Bool) : (Json.bool b).scrub = .bool b := (Proper.bool 0 b).clean

section
variable {name : Bytes} (hn : name.all (· < 0x80) = true)
include hn

theorem scrubField_ascii (v : Json) : scrubField (name, v) = (name, v.scrub) := by
  rw [scrubField, scrub_of_isValid (Utf8.isValid_of_ascii hn)]

theorem scrub_fieldIf (shown : Bool) (v : Json) :
    (fieldIf shown name v).map scrubField = fieldIf shown name v.scrub := by
  cases shown with
  | false => rfl
  | true =>
    rw [fieldIf, if_pos rfl, List.map_singleton, scrubField_ascii hn]
    rfl

/-- A text that has stray bytes only is not left out. -/
theorem scrub_optional (text : Bytes) :
    (optional name text).map scrubField = optional name (Utf8.scrub text) := by
  rw [optional, scrub_fieldIf hn, scrub_string, optional, isEmpty_scrub]

end

variable (markup : Bool)

theorem write_array (items : List Json) :
    write markup (.array items) = 91 :: (writeItems markup items ++ [93]) := by
  rw [write, List.append_assoc]
  rfl

theorem write_object (fields : List (Bytes × Json)) :
    write markup (.object fields) = 123 :: (writeFields markup fields ++ [125]) := by
  rw [write, List.append_assoc]
  rfl

theorem writeItems_cons (v w : Json) (items : List Json) :
    writeItems markup (v :: w :: items) = write markup v ++ 44 :: writeItems markup (w :: items) := by
  rw [writeItems, List.append_assoc]
  · rfl
  · simp

theorem writeFields_cons (field next : Bytes × Json) (fields : List (Bytes × Json)) :
    writeFields markup (field :: next :: fields) =
      writeField markup field ++ 44 :: writeFields markup (next :: fields) := by
  rw [writeFields, List.append_assoc]
  · rfl
  · simp

/-- The value is read back inside a container, up to a byte that can follow it there. -/
def ReadBack (d : Nat) (v : Json) : Prop :=
  ∀ (frame : Frame) (stack : List Frame) (c : UInt8) (rest : Bytes), EndsValue c →
    stack.length + 1 + d ≤ maxDepth →
      Reader.run ⟨frame :: stack, .value⟩ (write markup v ++ c :: rest) =
        deliver v.scrub (c :: rest) (frame :: stack)

/-! Arrays. -/

/-- A value begins with a byte that tells it from the end of an array. -/
theorem step_firstItem {d : Nat} {v : Json} (h : Nested d v) (stack : List Frame) (t : Bytes) :
    Reader.run ⟨stack, .firstItem⟩ (write markup v ++ t) =
      Reader.run ⟨stack, .value⟩ (write markup v ++ t) := by
  have same {b : UInt8} (s : Bytes) (hs : isSpace b = false) (hb : b ≠ 93) :
      Reader.run ⟨stack, .firstItem⟩ (b :: s) = Reader.run ⟨stack, .value⟩ (b :: s) := by
    have hstep : Reader.step ⟨stack, .firstItem⟩ b = Reader.step ⟨stack, .value⟩ b := by
      simp only [Reader.step, hs, Bool.false_eq_true, hb, if_false]
    rw [Reader.run, Reader.run, hstep]
  cases h with
  | null => rfl
  | bool d b => cases b <;> rfl
  | int d n =>
    cases n with
    | ofNat n =>
      obtain ⟨b, s, he, -⟩ := Bytes.ofNat_cons n
      have hdigit := Bytes.isDigit_ofNat n b (by rw [he]; exact List.mem_cons_self)
      have hw : write markup (.int (.ofNat n)) = b :: s := he
      rw [hw]
      exact same _ (isSpace_of_isDigit hdigit) (ne_of_isDigit hdigit (by decide))
    | negSucc n => exact same _ rfl (by decide)
  | string d s =>
    obtain ⟨body, he, -⟩ := writeString_cons markup s
    rw [write, he]
    exact same _ rfl (by decide)
  | array h =>
    rw [write_array]
    exact same _ rfl (by decide)
  | object h =>
    rw [write_object]
    exact same _ rfl (by decide)

theorem run_items {d : Nat} {items : List Json} (hne : items ≠ [])
    (hread : ∀ v ∈ items, ReadBack markup d v) (acc : List Json) (stack : List Frame)
    (hd : stack.length + 1 + d ≤ maxDepth) (rest : Bytes) :
    Reader.run ⟨.array acc :: stack, .value⟩ (writeItems markup items ++ 93 :: rest) =
      deliver (.array (acc.reverse ++ items.map scrub)) rest stack := by
  induction items generalizing acc with
  | nil => exact absurd rfl hne
  | cons v items ih =>
    have hv := hread v List.mem_cons_self (.array acc) stack
    cases items with
    | nil =>
      rw [writeItems, hv 93 rest (.inr (.inl rfl)) hd, deliver]
      refine run_accept rest ?_
      rw [List.map_singleton, ← List.reverse_cons]
      rfl
    | cons w items =>
      have hcomma : Reader.step ⟨.array (v.scrub :: acc) :: stack, .separator⟩ 44 =
          .more ⟨.array (v.scrub :: acc) :: stack, .value⟩ := rfl
      rw [writeItems_cons, List.append_assoc, List.cons_append, hv 44 _ (.inl rfl) hd, deliver, Frame.push,
        run_more _ hcomma, ih (by simp) (fun u hu => hread u (List.mem_cons_of_mem _ hu))]
      simp

theorem run_array {d : Nat} {items : List Json} (hp : ∀ v ∈ items, Nested d v)
    (hread : ∀ v ∈ items, ReadBack markup d v) (stack : List Frame)
    (hd : stack.length + 1 + d ≤ maxDepth) (rest : Bytes) :
    Reader.run ⟨stack, .value⟩ (write markup (.array items) ++ rest) =
      deliver (scrub (.array items)) rest stack := by
  have hopen : Reader.step ⟨stack, .value⟩ 91 = .more ⟨.array [] :: stack, .firstItem⟩ := by
    have hlt : stack.length < maxDepth := by omega
    change openFrame stack (.array []) .firstItem = _
    rw [openFrame, if_pos hlt]
  rw [write_array, scrub_array, List.cons_append, run_more _ hopen, List.append_assoc,
    List.singleton_append]
  cases items with
  | nil =>
    exact run_accept rest rfl
  | cons v items =>
    have hfirst : Reader.run ⟨.array [] :: stack, .firstItem⟩
        (writeItems markup (v :: items) ++ 93 :: rest) =
        Reader.run ⟨.array [] :: stack, .value⟩ (writeItems markup (v :: items) ++ 93 :: rest) := by
      cases items with
      | nil =>
        rw [writeItems]
        exact step_firstItem markup (hp v List.mem_cons_self) _ _
      | cons w items =>
        rw [writeItems_cons, List.append_assoc]
        exact step_firstItem markup (hp v List.mem_cons_self) _ _
    rw [hfirst, run_items markup (by simp) hread [] stack hd rest]
    rfl

/-! Objects. -/

theorem run_field {d : Nat} (name : Bytes) {v : Json} (hv : ReadBack markup d v)
    (acc : List (Bytes × Json)) (old : Bytes) (stack : List Frame)
    (hd : stack.length + 1 + d ≤ maxDepth) {c : UInt8} (hc : EndsValue c) (rest : Bytes) :
    Reader.run ⟨.object acc old :: stack, .name⟩ (writeField markup (name, v) ++ c :: rest) =
      Reader.run ⟨.object ((Utf8.scrub name, v.scrub) :: acc) [] :: stack, .separator⟩
        (c :: rest) := by
  obtain ⟨body, he, hbody⟩ := writeString_cons markup name
  have hquote : Reader.step ⟨.object acc old :: stack, .name⟩ 34 =
      .more ⟨.object acc old :: stack, .text true [] .none⟩ := rfl
  have hcolon (name : Bytes) : Reader.step ⟨.object acc name :: stack, .colon⟩ 58 =
      .more ⟨.object acc name :: stack, .value⟩ := rfl
  have hw : writeField markup (name, v) ++ c :: rest =
      34 :: (body ++ 34 :: 58 :: (write markup v ++ c :: rest)) := by
    rw [writeField, he]
    simp only [List.cons_append, List.append_assoc]
    rfl
  rw [hw, run_more _ hquote, hbody, if_pos rfl, setName, run_more _ (hcolon _),
    hv (.object acc _) stack c rest hc hd]
  rfl

theorem run_fields {d : Nat} {fields : List (Bytes × Json)} (hne : fields ≠ [])
    (hread : ∀ field ∈ fields, ReadBack markup d field.2) (acc : List (Bytes × Json)) (old : Bytes)
    (stack : List Frame) (hd : stack.length + 1 + d ≤ maxDepth) (rest : Bytes) :
    Reader.run ⟨.object acc old :: stack, .name⟩ (writeFields markup fields ++ 125 :: rest) =
      deliver (.object (acc.reverse ++ fields.map scrubField)) rest stack := by
  induction fields generalizing acc old with
  | nil => exact absurd rfl hne
  | cons field fields ih =>
    obtain ⟨name, v⟩ := field
    have hfield {c : UInt8} (hc : EndsValue c) :=
      run_field markup name (hread (name, v) List.mem_cons_self) acc old stack hd hc
    cases fields with
    | nil =>
      rw [writeFields, hfield (.inr (.inr rfl))]
      refine run_accept rest ?_
      rw [List.map_singleton, ← List.reverse_cons]
      rfl
    | cons next fields =>
      have hcomma (field : Bytes × Json) :
          Reader.step ⟨.object (field :: acc) [] :: stack, .separator⟩ 44 =
            .more ⟨.object (field :: acc) [] :: stack, .name⟩ := rfl
      rw [writeFields_cons, List.append_assoc, List.cons_append, hfield (.inl rfl),
        run_more _ (hcomma _), ih (by simp) (fun f hf => hread f (List.mem_cons_of_mem _ hf))]
      simp [scrubField]

theorem writeField_cons (field : Bytes × Json) : ∃ s, writeField markup field = 34 :: s := by
  obtain ⟨body, he, -⟩ := writeString_cons markup field.1
  exact ⟨_, by rw [writeField, he]; rfl⟩

theorem run_object {d : Nat} {fields : List (Bytes × Json)}
    (hread : ∀ field ∈ fields, ReadBack markup d field.2) (stack : List Frame)
    (hd : stack.length + 1 + d ≤ maxDepth) (rest : Bytes) :
    Reader.run ⟨stack, .value⟩ (write markup (.object fields) ++ rest) =
      deliver (scrub (.object fields)) rest stack := by
  have hopen : Reader.step ⟨stack, .value⟩ 123 = .more ⟨.object [] [] :: stack, .firstName⟩ := by
    have hlt : stack.length < maxDepth := by omega
    change openFrame stack (.object [] []) .firstName = _
    rw [openFrame, if_pos hlt]
  rw [write_object, scrub_object, List.cons_append, run_more _ hopen, List.append_assoc,
    List.singleton_append]
  cases fields with
  | nil => exact run_accept rest rfl
  | cons field fields =>
    have hfirst : ∃ s, writeFields markup (field :: fields) = 34 :: s := by
      obtain ⟨s, he⟩ := writeField_cons markup field
      cases fields with
      | nil => exact ⟨s, by rw [writeFields, he]⟩
      | cons next fields =>
        refine ⟨s ++ 44 :: writeFields markup (next :: fields), ?_⟩
        rw [writeFields_cons, he]
        rfl
    have hname : Reader.run ⟨.object [] [] :: stack, .firstName⟩
        (writeFields markup (field :: fields) ++ 125 :: rest) =
        Reader.run ⟨.object [] [] :: stack, .name⟩
          (writeFields markup (field :: fields) ++ 125 :: rest) := by
      obtain ⟨s, he⟩ := hfirst
      rw [he]
      rfl
    rw [hname, run_fields markup (by simp) hread [] [] stack hd rest]
    rfl

/-- Every value is read back. -/
theorem Nested.readBack {d : Nat} {v : Json} (h : Nested d v) : ReadBack markup d v := by
  induction h with
  | null =>
    intro frame stack c rest _ _
    rw [(Proper.null 0).clean]
    exact run_word .null "ull" (by decide) (frame :: stack) (c :: rest)
  | bool d b =>
    intro frame stack c rest _ _
    rw [(Proper.bool 0 b).clean]
    cases b with
    | true => exact run_word (.bool true) "rue" (by decide) (frame :: stack) (c :: rest)
    | false => exact run_word (.bool false) "alse" (by decide) (frame :: stack) (c :: rest)
  | int d n =>
    intro frame stack c rest hc _
    rw [(Proper.int 0 n).clean]
    exact run_int n hc frame stack rest
  | string d s =>
    intro frame stack c rest _ _
    obtain ⟨body, he, hbody⟩ := writeString_cons markup s
    have hquote : Reader.step ⟨frame :: stack, .value⟩ 34 =
        .more ⟨frame :: stack, .text false [] .none⟩ := rfl
    rw [scrub_string, write, he, List.cons_append, run_more _ hquote, List.append_assoc,
      List.singleton_append, hbody]
    rfl
  | array hp ih =>
    intro frame stack c rest _ hd
    exact run_array markup hp ih (frame :: stack) (by simp only [List.length_cons]; omega) _
  | object _ ih =>
    intro frame stack c rest _ hd
    exact run_object markup ih (frame :: stack) (by simp only [List.length_cons]; omega) _

theorem Nested.readFirst_object {d : Nat} {fields : List (Bytes × Json)}
    (h : Nested d (.object fields)) (hd : d ≤ maxDepth) (rest : Bytes) :
    readFirst (write markup (.object fields) ++ rest) = .ok (scrub (.object fields), rest) := by
  cases h with
  | @object d _ hv =>
    exact run_object markup (fun field hf => (hv field hf).readBack markup) []
      (by simpa [Nat.add_comm] using hd) rest

theorem readFirst_object {d : Nat} {fields : List (Bytes × Json)} (h : Proper d (.object fields))
    (hd : d ≤ maxDepth) (rest : Bytes) :
    readFirst (write markup (.object fields) ++ rest) = .ok (.object fields, rest) := by
  rw [h.nested.readFirst_object markup hd, h.clean]

/-! Parts of a text. -/

/-- If reading goes on, it goes on inside a container. -/
def Step.Inside : Step → Prop
  | .more r => r.stack ≠ []
  | _ => True

section
variable {stack : List Frame} (b : UInt8)

theorem inside_ite {p : Prop} [Decidable p] {x y : Step} (hx : x.Inside) (hy : y.Inside) :
    (if p then x else y).Inside := by
  split
  · exact hx
  · exact hy

theorem inside_accept (v : Json) (stack : List Frame) : (accept v stack).Inside := by
  rcases stack with _ | ⟨_ | _, stack⟩
  · trivial
  · exact List.cons_ne_nil _ _
  · exact List.cons_ne_nil _ _

theorem inside_close (stack : List Frame) : (close b stack).Inside := by
  rcases stack with _ | ⟨_ | _, stack⟩
  · trivial
  · exact inside_accept _ _
  · exact inside_accept _ _

theorem inside_beginValue (hr : stack ≠ []) : (beginValue stack b).Inside := by
  unfold beginValue openFrame
  repeat' apply inside_ite
  all_goals first | exact hr | exact List.cons_ne_nil _ _ | trivial

theorem inside_beginName (hr : stack ≠ []) (again : Expected) :
    (beginName stack again b).Inside := by
  unfold beginName
  repeat' apply inside_ite
  all_goals first | exact hr | trivial

theorem inside_separate (hr : stack ≠ []) : (separate stack b).Inside := by
  unfold separate
  repeat' split
  all_goals first | exact hr | exact inside_close _ _ | trivial

theorem inside_stepText (hr : stack ≠ []) (isName : Bool) (raw : Bytes) (escape : Escape) :
    (stepText stack isName raw b escape).Inside := by
  have hname (name : Bytes) : setName name stack ≠ [] := by
    unfold setName
    split
    · exact List.cons_ne_nil _ _
    · exact hr
  unfold stepText
  repeat' split
  all_goals first | exact hr | exact hname _ | exact inside_accept _ _ | trivial

theorem inside_endNumber (stack : List Frame) (raw : Bytes) : (endNumber stack raw b).Inside := by
  rcases stack with _ | ⟨_ | _, stack⟩
  · trivial
  · exact inside_separate b (List.cons_ne_nil _ _)
  · exact inside_separate b (List.cons_ne_nil _ _)

/-- Only the end of a container leads out of it. -/
theorem inside_step {r : Reader} (hr : r.stack ≠ []) : (r.step b).Inside := by
  unfold Reader.step
  split
  · exact inside_beginValue b hr
  · split
    · exact hr
    · split
      · exact inside_close _ _
      · exact inside_beginValue b hr
  · exact inside_beginName b hr _
  · split
    · exact inside_close _ _
    · exact inside_beginName b hr _
  · repeat' split
    all_goals first | exact hr | trivial
  · exact inside_separate b hr
  · exact inside_stepText b hr ..
  · repeat' split
    all_goals first | exact hr | exact inside_accept _ _ | trivial
  · repeat' split
    all_goals first | exact hr | exact inside_endNumber _ _ _ | trivial

end

/-- If a value is complete only behind a cut, then the text before the cut ends too early. -/
theorem run_cut {r : Reader} (hr : r.stack ≠ []) {s t rest : Bytes} {v : Json}
    (h : r.run (s ++ t) = .ok (v, rest)) (hlt : rest.length < t.length) : r.run s = .error .ended := by
  induction s generalizing r with
  | nil =>
    obtain ⟨_ | ⟨frame, stack⟩, expected⟩ := r
    · exact absurd rfl hr
    · rfl
  | cons b s ih =>
    rw [List.cons_append, Reader.run] at h
    rw [Reader.run]
    cases hstep : r.step b with
    | more r' =>
      have hin := inside_step b hr
      rw [hstep] at h hin
      exact ih hin h
    | done v' =>
      rw [hstep] at h
      cases h
      simp only [List.length_append] at hlt
      omega
    | before v' =>
      rw [hstep] at h
      cases h
      simp only [List.length_cons, List.length_append] at hlt
      omega
    | bad e =>
      rw [hstep] at h
      cases h

/-- An object's text breaks off before its end. -/
theorem readFirst_cut {d : Nat} {fields : List (Bytes × Json)} (h : Proper d (.object fields))
    (hd : d ≤ maxDepth) {s t : Bytes} (hs : s ≠ []) (ht : t ≠ [])
    (he : write markup (.object fields) = s ++ t) : readFirst s = .error .ended := by
  cases s with
  | nil => exact absurd rfl hs
  | cons b s =>
    have hread := readFirst_object markup h hd []
    have hopen : Reader.step .start b = .more ⟨[.object [] []], .firstName⟩ := by
      rw [write_object] at he
      obtain ⟨rfl, -⟩ := List.cons_eq_cons.mp he
      rfl
    rw [List.append_nil, he, List.cons_append, readFirst, run_more _ hopen] at hread
    rw [readFirst, run_more _ hopen]
    exact run_cut (by simp) hread (List.length_pos_iff.mpr ht)

/-! Newlines. -/

theorem Spelling.newline_not_mem {c : Char} {s : Bytes} (h : Spelling c s) : 10 ∉ s := by
  cases h with
  | plain hp =>
    intro hm
    exact (hp 10 hm).2.2 (by decide)
  | letter hb _ =>
    simp only [List.mem_cons, List.not_mem_nil, or_false, not_or]
    refine ⟨by decide, ?_⟩
    rintro rfl
    exact absurd hb (by decide)
  | code hx _ _ =>
    have hnone : hexValue 10 = none := by decide
    simp only [List.mem_cons, List.not_mem_nil, or_false, not_or]
    refine ⟨by decide, by decide, ?_, ?_, ?_, ?_⟩ <;> rintro rfl <;> simp [hex4, hnone] at hx

theorem newline_not_mem_writeString (s : Bytes) : 10 ∉ writeString markup s := by
  have hw : writeString markup s = 34 :: (spelled markup (Utf8.runes s) ++ [34]) := rfl
  rw [hw]
  simp only [List.mem_cons, List.mem_append, List.not_mem_nil, or_false, not_or, spelled,
    List.mem_flatMap, not_exists, not_and]
  exact ⟨by decide, fun r _ => (spelling_writeRune markup r).newline_not_mem, by decide⟩

theorem newline_not_mem_items {items : List Json} (h : ∀ v ∈ items, 10 ∉ write markup v) :
    10 ∉ writeItems markup items := by
  induction items with
  | nil => simp [writeItems]
  | cons v items ih =>
    have hv := h v List.mem_cons_self
    cases items with
    | nil => rwa [writeItems]
    | cons w items =>
      rw [writeItems_cons, List.mem_append, List.mem_cons]
      rintro (hm | hm | hm)
      · exact hv hm
      · exact absurd hm (by decide)
      · exact ih (fun u hu => h u (List.mem_cons_of_mem _ hu)) hm

theorem newline_not_mem_fields {fields : List (Bytes × Json)}
    (h : ∀ field ∈ fields, 10 ∉ write markup field.2) : 10 ∉ writeFields markup fields := by
  have hfield (field : Bytes × Json) (hm : field ∈ fields) : 10 ∉ writeField markup field := by
    rw [writeField, List.mem_append, List.mem_append]
    rintro ((hs | hc) | hv)
    · exact newline_not_mem_writeString markup field.1 hs
    · exact absurd hc (by decide)
    · exact h field hm hv
  clear h
  induction fields with
  | nil => simp [writeFields]
  | cons field fields ih =>
    have hf := hfield field List.mem_cons_self
    cases fields with
    | nil => rwa [writeFields]
    | cons next fields =>
      rw [writeFields_cons, List.mem_append, List.mem_cons]
      rintro (hm | hm | hm)
      · exact hf hm
      · exact absurd hm (by decide)
      · exact ih (fun f hf => hfield f (List.mem_cons_of_mem _ hf)) hm

theorem newline_not_mem_ofInt (n : Int) : 10 ∉ Bytes.ofInt n := by
  have digits (n : Nat) : 10 ∉ Bytes.ofNat n := fun hm =>
    absurd (Bytes.isDigit_ofNat n 10 hm) (by decide)
  cases n with
  | ofNat n => exact digits n
  | negSucc n =>
    rw [Bytes.ofInt_negSucc, List.mem_cons, not_or]
    exact ⟨by decide, digits (n + 1)⟩

theorem Nested.newline_not_mem {d : Nat} {v : Json} (h : Nested d v) : 10 ∉ write markup v := by
  induction h with
  | null =>
    rw [write]
    decide
  | bool d b =>
    rw [write]
    cases b <;> decide
  | int d n => exact newline_not_mem_ofInt n
  | string d s => exact newline_not_mem_writeString markup s
  | array _ ih =>
    rw [write_array]
    simpa using newline_not_mem_items markup ih
  | object _ ih =>
    rw [write_object]
    simpa using newline_not_mem_fields markup ih

end CommandShell.Json
