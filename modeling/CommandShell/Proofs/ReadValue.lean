import CommandShell.Proofs.JsonText

/-! What the reader makes of a text. Strings have no stray bytes, and containers are nested at most as
deep as is allowed. -/
namespace CommandShell.Json

mutual

/-- How deep the containers of a value are nested. -/
def depth : Json → Nat
  | .array items => depthItems items + 1
  | .object fields => depthFields fields + 1
  | _ => 0

def depthItems : List Json → Nat
  | [] => 0
  | v :: rest => max v.depth (depthItems rest)

def depthFields : List (Bytes × Json) → Nat
  | [] => 0
  | (_, v) :: rest => max v.depth (depthFields rest)

end

@[simp] theorem depth_string (s : Bytes) : depth (.string s) = 0 := by rw [depth] <;> simp

theorem depth_array_le {items : List Json} {d : Nat} :
    depth (.array items) ≤ d ↔ 0 < d ∧ ∀ v ∈ items, v.depth ≤ d - 1 := by
  have hitems (d : Nat) : depthItems items ≤ d ↔ ∀ v ∈ items, v.depth ≤ d := by
    induction items with
    | nil => simp [depthItems]
    | cons v items ih => rw [depthItems, Nat.max_le, ih, List.forall_mem_cons]
  rw [depth, ← hitems]
  omega

theorem depth_object_le {fields : List (Bytes × Json)} {d : Nat} :
    depth (.object fields) ≤ d ↔ 0 < d ∧ ∀ field ∈ fields, field.2.depth ≤ d - 1 := by
  have hfields (d : Nat) : depthFields fields ≤ d ↔ ∀ field ∈ fields, field.2.depth ≤ d := by
    induction fields with
    | nil => simp [depthFields]
    | cons field fields ih => rw [depthFields, Nat.max_le, ih, List.forall_mem_cons]
  rw [depth, ← hfields]
  omega

/-- Values whose strings have no stray bytes, in containers nested up to a depth. -/
inductive Legible : Nat → Json → Prop where
  | null (d : Nat) : Legible d .null
  | bool (d : Nat) (b : Bool) : Legible d (.bool b)
  | number (d : Nat) (text : Bytes) : Legible d (.number text)
  | string (d : Nat) {s : Bytes} (h : Utf8.isValid s = true) : Legible d (.string s)
  | array {d : Nat} {items : List Json} (h : ∀ v ∈ items, Legible d v) :
      Legible (d + 1) (.array items)
  | object {d : Nat} {fields : List (Bytes × Json)} (h : ∀ field ∈ fields, Legible d field.2) :
      Legible (d + 1) (.object fields)

/-- What an open container holds so far. -/
def Frame.Legible (d : Nat) : Frame → Prop
  | .array items => ∀ v ∈ items, Json.Legible d v
  | .object fields _ => ∀ field ∈ fields, Json.Legible d field.2

/-- Open containers that fit around one another: the further out, the deeper the values in it may be. -/
def Fitting : List Frame → Prop
  | [] => True
  | frame :: stack =>
    stack.length < maxDepth ∧ frame.Legible (maxDepth - (stack.length + 1)) ∧ Fitting stack

/-- The open containers fit, and a word that is being read is no container. -/
structure Reader.Sound (r : Reader) : Prop where
  stack : Fitting r.stack
  word : ∀ left v, r.expected = .word left v → ∀ d, Legible d v

def Step.Sound : Step → Prop
  | .more r => r.Sound
  | .done v | .before v => Legible maxDepth v
  | .bad _ => True

section
variable {stack : List Frame}

theorem Fitting.reader (h : Fitting stack) {expected : Expected}
    (he : ∀ left v, expected ≠ .word left v) : Reader.Sound ⟨stack, expected⟩ :=
  ⟨h, fun left v heq => absurd heq (he left v)⟩

theorem sound_ite {p : Prop} [Decidable p] {x y : Step} (hx : x.Sound) (hy : y.Sound) :
    (if p then x else y).Sound := by
  split
  · exact hx
  · exact hy

theorem Fitting.accept (h : Fitting stack) {v : Json} (hv : Legible (maxDepth - stack.length) v) :
    (accept v stack).Sound := by
  rcases stack with _ | ⟨items | ⟨fields, name⟩, stack⟩
  · exact hv
  · obtain ⟨hlt, hframe, hstack⟩ := h
    have hmore : Fitting (.array (v :: items) :: stack) :=
      ⟨hlt, List.forall_mem_cons.mpr ⟨hv, hframe⟩, hstack⟩
    exact hmore.reader (by simp)
  · obtain ⟨hlt, hframe, hstack⟩ := h
    have hmore : Fitting (.object ((name, v) :: fields) [] :: stack) :=
      ⟨hlt, List.forall_mem_cons.mpr ⟨hv, hframe⟩, hstack⟩
    exact hmore.reader (by simp)

/-- The container that is closed is one level deeper than what it holds. -/
theorem Fitting.close (h : Fitting stack) (b : UInt8) : (close b stack).Sound := by
  rcases stack with _ | ⟨items | ⟨fields, name⟩, stack⟩
  · trivial
  · obtain ⟨hlt, hframe, hstack⟩ := h
    have hdepth : maxDepth - stack.length = maxDepth - (stack.length + 1) + 1 := by omega
    refine hstack.accept ?_
    rw [hdepth]
    exact .array fun v hv => hframe v (List.mem_reverse.mp hv)
  · obtain ⟨hlt, hframe, hstack⟩ := h
    have hdepth : maxDepth - stack.length = maxDepth - (stack.length + 1) + 1 := by omega
    refine hstack.accept ?_
    rw [hdepth]
    exact .object fun field hf => hframe field (List.mem_reverse.mp hf)

theorem Fitting.openFrame (h : Fitting stack) {frame : Frame}
    (hframe : frame.Legible (maxDepth - (stack.length + 1))) {expected : Expected}
    (he : ∀ left v, expected ≠ .word left v) : (openFrame stack frame expected).Sound := by
  unfold Json.openFrame
  split
  · next hlt =>
    have hmore : Fitting (frame :: stack) := ⟨hlt, hframe, h⟩
    exact hmore.reader he
  · trivial

theorem Fitting.beginValue (h : Fitting stack) (b : UInt8) : (beginValue stack b).Sound := by
  have hword (left : Bytes) {v : Json} (hv : ∀ d, Legible d v) :
      Step.Sound (.more ⟨stack, .word left v⟩) :=
    ⟨h, fun left' v' heq => by cases heq; exact hv⟩
  unfold Json.beginValue
  refine sound_ite (h.reader (by simp)) <| sound_ite (h.openFrame (by simp [Frame.Legible]) (by simp)) <|
    sound_ite (h.openFrame (by simp [Frame.Legible]) (by simp)) <| sound_ite (h.reader (by simp)) <|
    sound_ite (h.reader (by simp)) <| sound_ite (h.reader (by simp)) <|
    sound_ite (h.reader (by simp)) <| sound_ite (hword _ fun d => .bool d true) <|
    sound_ite (hword _ fun d => .bool d false) <| sound_ite (hword _ fun d => .null d) trivial

theorem Fitting.beginName (h : Fitting stack) {again : Expected}
    (he : ∀ left v, again ≠ .word left v) (b : UInt8) : (beginName stack again b).Sound := by
  unfold Json.beginName
  exact sound_ite (h.reader he) (sound_ite (h.reader (by simp)) trivial)

theorem Fitting.separate (h : Fitting stack) (b : UInt8) : (separate stack b).Sound := by
  unfold Json.separate
  refine sound_ite (h.reader (by simp)) ?_
  split
  · exact sound_ite (h.reader (by simp)) (sound_ite (h.close b) trivial)
  · exact sound_ite (h.reader (by simp)) (sound_ite (h.close b) trivial)
  · trivial

theorem Fitting.setName (h : Fitting stack) (name : Bytes) : Fitting (setName name stack) := by
  unfold Json.setName
  split
  · exact h
  · exact h

/-- A string that is complete has its stray bytes replaced. -/
theorem Fitting.stepText (h : Fitting stack) (isName : Bool) (raw : Bytes) (b : UInt8)
    (escape : Escape) : (stepText stack isName raw b escape).Sound := by
  have htext : Utf8.isValid (textOf raw) = true := Utf8.isValid_scrub _
  unfold Json.stepText
  split
  · exact sound_ite
      (sound_ite ((h.setName _).reader (by simp)) (h.accept (.string _ htext))) <|
      sound_ite (h.reader (by simp)) <| sound_ite trivial (h.reader (by simp))
  · exact sound_ite (h.reader (by simp)) (sound_ite (h.reader (by simp)) trivial)
  · exact sound_ite (h.reader (by simp)) trivial

theorem Fitting.endNumber (h : Fitting stack) (raw : Bytes) (b : UInt8) :
    (endNumber stack raw b).Sound := by
  have haccept := h.accept (.number _ raw.reverse)
  unfold Json.endNumber
  split
  · next heq =>
    rw [heq] at haccept
    exact haccept.stack.separate b
  · next heq =>
    rw [heq] at haccept
    exact haccept
  · exact haccept

end

theorem Reader.Sound.step {r : Reader} (h : r.Sound) (b : UInt8) : (r.step b).Sound := by
  obtain ⟨hstack, hword⟩ := h
  unfold Reader.step
  split
  · exact hstack.beginValue b
  · exact sound_ite ⟨hstack, hword⟩ (sound_ite (hstack.close b) (hstack.beginValue b))
  · exact hstack.beginName (by simp) b
  · exact sound_ite (hstack.close b) (hstack.beginName (by simp) b)
  · exact sound_ite ⟨hstack, hword⟩ (sound_ite (hstack.reader (by simp)) trivial)
  · exact hstack.separate b
  · exact hstack.stepText ..
  · next left v he =>
    have hv := hword left v he
    split
    · exact sound_ite (hstack.accept (hv _)) trivial
    · refine sound_ite ⟨hstack, ?_⟩ trivial
      rintro left' v' ⟨⟩
      exact hv
    · exact hstack.accept (hv _)
  · split
    · exact hstack.reader (by simp)
    · exact sound_ite (hstack.endNumber ..) trivial

/-- Whatever a reader gives is legible. -/
theorem Reader.Sound.run {r : Reader} (h : r.Sound) {s rest : Bytes} {v : Json}
    (hrun : r.run s = .ok (v, rest)) : Legible maxDepth v := by
  induction s generalizing r with
  | nil =>
    rw [Reader.run] at hrun
    unfold Reader.finish at hrun
    split at hrun
    · next hv =>
      obtain ⟨rfl, -⟩ := Prod.mk.inj (Except.ok.inj hrun)
      split at hv
      · split at hv
        · obtain rfl := Option.some.inj hv
          exact .number _ _
        · cases hv
      · cases hv
    · cases hrun
  | cons b s ih =>
    have hstep := h.step b
    rw [Reader.run] at hrun
    cases hr : r.step b with
    | more r' =>
      rw [hr] at hrun hstep
      exact ih hstep hrun
    | done v' =>
      rw [hr] at hrun hstep
      obtain ⟨rfl, -⟩ := Prod.mk.inj (Except.ok.inj hrun)
      exact hstep
    | before v' =>
      rw [hr] at hrun hstep
      obtain ⟨rfl, -⟩ := Prod.mk.inj (Except.ok.inj hrun)
      exact hstep
    | bad e =>
      rw [hr] at hrun
      cases hrun

theorem legible_of_read? {s : Bytes} {v : Json} (h : read? s = some v) : Legible maxDepth v := by
  have hempty : Fitting [] := trivial
  have hstart : Reader.Sound .start := hempty.reader (by simp)
  rw [read?, readFirst] at h
  split at h
  · next hrun =>
    split at h
    · obtain rfl := Option.some.inj h
      exact hstart.run hrun
    · cases h
  · cases h

end CommandShell.Json
