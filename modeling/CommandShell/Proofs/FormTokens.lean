import CommandShell.Proofs.AliasExpansion
import CommandShell.Proofs.OneLineForm

/-! What the one-line form of a tree tells and what it does not. The form is known from the kinds at all
places and the tokens of simple commands and groups there, and it tells all of them. So no byte of a word
or a target can pass for structure. -/
namespace CommandShell.Tree

/-- What a node shows besides its operands: a simple command its words and its redirections, a group its
redirections. -/
def shownTokens : Tree → List Bytes
  | node .plain argv files _ _ => argv.map showWord ++ files.targets.map showEntry
  | node .subshell _ files _ _ => files.targets.map showEntry
  | _ => []

/-- The same kind and the same tokens at every place. -/
def SameTokens (t t' : Tree) : Prop :=
  ∀ way, (t.descend way).kind? = (t'.descend way).kind? ∧
    (t.descend way).shownTokens = (t'.descend way).shownTokens

namespace SameTokens
variable {t t' t'' : Tree}

theorem refl (t : Tree) : SameTokens t t := fun _ => ⟨rfl, rfl⟩

theorem symm (h : SameTokens t t') : SameTokens t' t := fun way => ⟨(h way).1.symm, (h way).2.symm⟩

theorem trans (h : SameTokens t t') (h' : SameTokens t' t'') : SameTokens t t'' :=
  fun way => ⟨(h way).1.trans (h' way).1, (h way).2.trans (h' way).2⟩

theorem kind?_eq (h : SameTokens t t') : t.kind? = t'.kind? := (h []).1

theorem tokens_eq (h : SameTokens t t') : t.shownTokens = t'.shownTokens := (h []).2

theorem operand (h : SameTokens t t') (side : Side) : SameTokens (t.operand side) (t'.operand side) :=
  fun way => h (side :: way)

/-- What is the same at a node and in its operands is the same everywhere. -/
theorem of_node {kind : Kind} {argv argv' : List Bytes} {files files' : Redirections}
    {left left' right right' : Tree}
    (htokens : (node kind argv files left right).shownTokens =
      (node kind argv' files' left' right').shownTokens)
    (hl : SameTokens left left') (hr : SameTokens right right') :
    SameTokens (node kind argv files left right) (node kind argv' files' left' right') := by
  intro way
  cases way with
  | nil => exact ⟨rfl, htokens⟩
  | cons side way =>
    cases side with
    | left => exact hl way
    | right => exact hr way

end SameTokens

/-! ### Words that are not shown -/

/-- The tree without the words of its groups and operators. -/
def bare : Tree → Tree
  | absent => absent
  | node kind argv files left right =>
    node kind (if kind = .plain then argv else []) files left.bare right.bare

theorem isAbsent_bare (t : Tree) : t.bare.isAbsent = t.isAbsent := by
  cases t <;> rfl

theorem wordless_bare (t : Tree) :
    t.bare.Everywhere fun kind argv _ _ _ => kind ≠ .plain → argv = [] := by
  induction t with
  | absent => trivial
  | node kind argv files left right ihl ihr => exact ⟨fun hk => if_neg hk, ihl, ihr⟩

theorem oneLine_bare (t : Tree) : t.bare.oneLine = t.oneLine := by
  induction t with
  | absent => rfl
  | node kind argv files left right ihl ihr =>
    cases kind with
    | plain | unknown n => rfl
    | subshell => rw [bare, oneLine, ihl, oneLine]
    | sequence | and | or | pipe =>
      rw [bare, oneLine, ihl, ihr, oneLine] <;> simp

theorem defect?_bare (t : Tree) : t.bare.defect? = t.defect? := by
  induction t with
  | absent => rfl
  | node kind argv files left right ihl ihr =>
    cases kind with
    | plain => simp [bare, defect?, isAbsent_bare]
    | unknown n => rfl
    | subshell => simp [bare, defect?, isAbsent_bare, ihl]
    | sequence | and | or | pipe => simp [bare, defect?, isAbsent_bare, ihl, ihr]

theorem sameTokens_bare (t : Tree) : SameTokens t t.bare := by
  induction t with
  | absent => exact .refl absent
  | node kind argv files left right ihl ihr =>
    refine .of_node ?_ ihl ihr
    cases kind <;> rfl

theorem formed_bare {t : Tree} (h : t.isValid = true) : Formed t.bare := by
  refine formed_of_valid ?_ t.wordless_bare
  rw [isValid, defect?_bare]
  exact h

/-! ### Form and tokens -/

theorem SameForm.sameTokens {t t' : Tree} (h : SameForm t t') : SameTokens t t' := by
  induction h with
  | plain word h =>
    refine .of_node ?_ (.refl _) (.refl _)
    exact congrArg (showWord word :: ·) h
  | group _ hfiles ih => exact .of_node hfiles ih (.refl _)
  | @binary kind _ _ _ _ _ _ ihl ihr =>
    refine .of_node ?_ ihl ihr
    cases kind <;> rfl

theorem SameForm.oneLine_eq {t t' : Tree} (h : SameForm t t') : t.oneLine = t'.oneLine := by
  induction h with
  | @plain word words words' files files' h =>
    rw [← List.append_nil (oneLine _), oneLine_plain, h, ← oneLine_plain, List.append_nil]
  | group _ hfiles ih =>
    rw [subshell, subshell, oneLine, oneLine, ih, showRedirections_eq, showRedirections_eq, hfiles]
  | @binary kind _ _ _ _ _ _ ihl ihr =>
    cases kind with
    | plain | unknown n => rfl
    | subshell => exact congrArg (fun s => "SubShell(" ++ s ++ showRedirections .none ++ ")") ihl
    | sequence | and | or | pipe =>
      rw [Tree.binary, Tree.binary, oneLine, ihl, ihr, oneLine] <;> simp

/-- Trees with the same tokens are put together in the same way. -/
theorem Formed.sameForm {t t' : Tree} (h : Formed t) (h' : Formed t') (hsame : SameTokens t t') :
    SameForm t t' := by
  have hplain : Kind.plain ∉ joiners := by decide
  have hgroup : Kind.subshell ∉ joiners := by decide
  induction h generalizing t' with
  | plain word words files =>
    have hkind := hsame.kind?_eq
    cases h' with
    | plain word' words' files' =>
      obtain ⟨hword, hrest⟩ := List.cons.inj hsame.tokens_eq
      obtain rfl := showWord_injective hword
      exact .plain word hrest
    | group => cases hkind
    | binary hk' =>
      cases hkind
      exact absurd hk' hplain
  | group files hi ih =>
    have hkind := hsame.kind?_eq
    cases h' with
    | plain => cases hkind
    | group files' hi' => exact .group (ih hi' (hsame.operand .left)) hsame.tokens_eq
    | binary hk' =>
      cases hkind
      exact absurd hk' hgroup
  | binary hk hl hr ihl ihr =>
    have hkind := hsame.kind?_eq
    cases h' with
    | plain =>
      cases hkind
      exact absurd hk hplain
    | group =>
      cases hkind
      exact absurd hk hgroup
    | binary hk' hl' hr' =>
      cases hkind
      exact .binary (ihl hl' (hsame.operand .left)) (ihr hr' (hsame.operand .right))

/-- Two valid trees have one form if and only if the kinds are the same at all places, and the tokens of
simple commands and groups there. -/
theorem oneLine_eq_iff_sameTokens {t t' : Tree} (hv : t.isValid = true) (hv' : t'.isValid = true) :
    t.oneLine = t'.oneLine ↔ SameTokens t t' := by
  have hf := formed_bare hv
  have hf' := formed_bare hv'
  constructor
  · intro h
    rw [← oneLine_bare t, ← oneLine_bare t'] at h
    have hform : SameForm t.bare t'.bare := (hf.oneLine_append hf' (congrArg (· ++ []) h)).1
    exact t.sameTokens_bare.trans (hform.sameTokens.trans t'.sameTokens_bare.symm)
  · intro hsame
    have hbare : SameTokens t.bare t'.bare :=
      t.sameTokens_bare.symm.trans (hsame.trans t'.sameTokens_bare)
    rw [← oneLine_bare t, ← oneLine_bare t']
    exact (hf.sameForm hf' hbare).oneLine_eq

/-- Words of a group are not shown and a word can be shown as a redirection is, but what looks like the
end of a command does not end it. -/
theorem oneLine_eq_iff_sameTokens_brackets :
    let word := node .subshell ["unseen"] { error := "log" } (plain ["cat", ">out"]) absent
    let output := subshell (plain ["cat"] { output := "out" }) { error := "log" }
    let bracketed := plain ["a], Plain[b"]
    let two := sequence (plain ["a"]) (plain ["b"])
    word.oneLine = output.oneLine ∧ SameTokens word output ∧ bracketed.oneLine ≠ two.oneLine := by
  intro word output bracketed two
  have hsame : SameTokens word output := .of_node rfl (.of_node rfl (.refl _) (.refl _)) (.refl _)
  refine ⟨(oneLine_eq_iff_sameTokens (by decide) (by decide)).mpr hsame, hsame, fun h => ?_⟩
  have hkind := ((oneLine_eq_iff_sameTokens (by decide) (by decide)).mp h).kind?_eq
  cases hkind

end CommandShell.Tree
