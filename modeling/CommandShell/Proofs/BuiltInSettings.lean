import CommandShell.Config.Document
import CommandShell.Proofs.Utf8
import Mathlib

/-! The built-in configuration. The text that a new configuration directory gets is read as the
settings that apply where there is no such directory. -/
namespace CommandShell

/-- The character of an ASCII byte. -/
def Bytes.asciiChar (b : UInt8) : Char := Char.ofNat b.toNat

namespace Yaml

theorem readable_ascii {s : Bytes} (h : s.all fun b => b < 0x80 && isAllowed (Bytes.asciiChar b))
    (offset : Nat) :
    ((readable offset (utf8Units s)).1.map Prod.fst, (readable offset (utf8Units s)).2) =
      (s.map Bytes.asciiChar, none) := by
  induction s generalizing offset with
  | nil =>
    have hnil : utf8Units [] = [] := by rw [utf8Units, Utf8.runes, List.map_nil]
    rw [hnil]
    rfl
  | cons b s ih =>
    rw [List.all_cons, Bool.and_eq_true, Bool.and_eq_true] at h
    obtain ⟨⟨hb, hallowed⟩, hs⟩ := h
    have hunits : utf8Units (b :: s) =
        (some (Bytes.asciiChar b), (Bytes.ofChar (Bytes.asciiChar b)).length) :: utf8Units s := by
      rw [utf8Units, Utf8.runes_ascii s (decide_eq_true_iff.mp hb), List.map_cons]
      dsimp only
      rw [← Bytes.asciiChar, if_pos hallowed]
      rfl
    obtain ⟨hchars, hbad⟩ := Prod.mk.inj
      (ih hs (offset + (Bytes.ofChar (Bytes.asciiChar b)).length))
    rw [hunits, readable, List.map_cons, List.map_cons, hchars, hbad]

theorem source_ascii {s : Bytes} (h : s.all fun b => b < 0x80 && isAllowed (Bytes.asciiChar b)) :
    Source.ofBytes s = ⟨s.map Bytes.asciiChar, true⟩ := by
  obtain ⟨hchars, hbad⟩ := Prod.mk.inj (readable_ascii h 0)
  unfold Source.ofBytes
  split
  next units start hstart =>
  -- A byte order mark is not ASCII.
  obtain ⟨rfl, rfl⟩ : utf8Units s = units ∧ 0 = start := by
    split at hstart
    · simp at h
    · simp at h
    · simp at h
    · exact Prod.mk.inj hstart
  split
  · next chars hr =>
    rw [hr] at hchars
    rw [← hchars]
  · next chars bad hr =>
    rw [hr] at hbad
    cases hbad

theorem value_of_tokens {s : Bytes} {list : List Token} (h : tokens (.ofBytes s) = list) :
    Value.ofBytes s =
      match ((Compose.document (4 * list.length + 16)).run ⟨list, [], []⟩).map Prod.fst with
      | none => none
      | some none => some .null
      | some (some node) => Value.ofNode? node := by
  subst h
  rfl

end Yaml

namespace Config

/-- A line that gives a setting a plain text. -/
private def line (name text : Bytes) (plain : Bool) : List Yaml.Token :=
  [.key, .scalar name true, .value, .scalar text plain]

theorem tokens_defaultText :
    Yaml.tokens (.ofBytes defaultText) =
      .blockMapping :: (line "name" "myshell" true ++ line "prompt" "\\s> " false ++
        line "color_prompt" "false" true ++ line "banner" "true" true ++
        line "history_file" "history" true ++ line "event_log" "events.log" true ++
        line "subshell_status" "discard" true ++
        [.key, .scalar "aliases" true, .value, .flowMapping, .flowMappingEnd, .blockEnd,
          .streamEnd]) := by
  have hascii : defaultText.all fun b => b < 0x80 && Yaml.isAllowed (Bytes.asciiChar b) := by
    decide +kernel
  rw [Yaml.source_ascii hascii]
  decide +kernel

private def entries : List (Yaml.Value × Yaml.Value) := [
  (.text "name", .text "myshell"), (.text "prompt", .text "\\s> "),
  (.text "color_prompt", .bool false), (.text "banner", .bool true),
  (.text "history_file", .text "history"), (.text "event_log", .text "events.log"),
  (.text "subshell_status", .text "discard"), (.text "aliases", .map [])]

theorem value_defaultText : Yaml.Value.ofBytes defaultText = some (.map entries) := by
  rewrite [Yaml.value_of_tokens tokens_defaultText]
  cbv

private theorem ofBytes_entries {s : Bytes} (h : Yaml.Value.ofBytes s = some (.map entries)) :
    ofBytes s = .ok
      { name := "myshell", prompt := "\\s> ", colorPrompt := false, banner := true,
        historyFile := "history", eventLog := "events.log", subshellStatus := "discard",
        aliases := some [] } := by
  unfold ofBytes
  rewrite [h]
  cbv

theorem builtIn_eq :
    builtIn =
      { name := "myshell", prompt := "\\s> ", colorPrompt := false, banner := true,
        historyFile := "history", eventLog := "events.log", subshellStatus := "discard",
        aliases := some [] } := by
  rw [builtIn, ofBytes_entries value_defaultText]
  rfl

/-- The text that is written means the settings that are built in. -/
theorem ofBytes_defaultText : ofBytes defaultText = .ok builtIn := by
  rw [builtIn_eq]
  exact ofBytes_entries value_defaultText

end Config

end CommandShell
