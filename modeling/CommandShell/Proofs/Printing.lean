import CommandShell.Line.Lexeme
import CommandShell.Proofs.CanonicalTree

/-! Writing a tree down: words in single quotes, operators and parentheses between them. The text of
a tree is also a sequence of tokens with single blanks between them. -/
namespace CommandShell
open Line (Operator)

/-- A text in single quotes. A single quote of its own stands escaped between two quoted parts. -/
def quoted (s : Bytes) : Bytes :=
  39 :: s.flatMap (fun b => if b = 39 then "'\\''" else [b]) ++ [39]

namespace Redirections

def target (op : Bytes) (s : Bytes) : Bytes := if s.isEmpty then [] else op ++ quoted s

def print (files : Redirections) : Bytes :=
  target " < " files.input ++ target " > " files.output ++ target " >> " files.append ++
    target " 2> " files.error

def texts (files : Redirections) : List Bytes :=
  [files.input, files.output, files.append, files.error]

def mapTexts (f : Bytes → Bytes) (files : Redirections) : Redirections :=
  { input := f files.input, output := f files.output, append := f files.append,
    error := f files.error }

end Redirections

namespace Tree

/-- The text of a tree. -/
def print : Tree → Bytes
  | absent | node (.unknown _) .. => []
  | node .plain argv files _ _ => Bytes.join " " (argv.map quoted) ++ files.print
  | node .subshell _ files inner _ => "( " ++ inner.print ++ " )" ++ files.print
  | node .sequence _ _ left right => left.print ++ " ; " ++ right.print
  | node .and _ _ left right => left.print ++ " && " ++ right.print
  | node .or _ _ left right => left.print ++ " || " ++ right.print
  | node .pipe _ _ left right => left.print ++ " | " ++ right.print

/-- All words and redirection targets. -/
def texts : Tree → List Bytes
  | absent => []
  | node _ argv files left right => argv ++ files.texts ++ left.texts ++ right.texts

def mapTexts (f : Bytes → Bytes) : Tree → Tree
  | absent => absent
  | node kind argv files left right =>
    node kind (argv.map f) (files.mapTexts f) (left.mapTexts f) (right.mapTexts f)

end Tree

/-- What a text of a tree is made of. The number of a redirection belongs to its operator. -/
inductive Token where
  | word (s : Bytes)
  | operator (op : Operator)
  | errors
  deriving DecidableEq, Repr

def operatorText : Operator → Bytes
  | .semicolon => ";"
  | .andIf => "&&"
  | .orIf => "||"
  | .pipe => "|"
  | .open => "("
  | .close => ")"
  | .less => "<"
  | .great => ">"
  | .dgreat => ">>"

/-- The text of a token under a way to write words. -/
def Token.text (spell : Bytes → Bytes) : Token → Bytes
  | word s => spell s
  | operator op => operatorText op
  | errors => "2>"

def targetTokens (op : Token) (s : Bytes) : List Token := if s.isEmpty then [] else [op, .word s]

def Redirections.tokens (files : Redirections) : List Token :=
  targetTokens (.operator .less) files.input ++ targetTokens (.operator .great) files.output ++
    targetTokens (.operator .dgreat) files.append ++ targetTokens .errors files.error

/-- The operator between the operands of a node. -/
def operatorOf : Kind → Operator
  | .and => .andIf
  | .or => .orIf
  | .pipe => .pipe
  | _ => .semicolon

def Tree.tokens : Tree → List Token
  | absent => []
  | node .plain argv files _ _ => argv.map .word ++ files.tokens
  | node .subshell _ files inner _ =>
    .operator .open :: inner.tokens ++ .operator .close :: files.tokens
  | node kind _ _ left right => left.tokens ++ .operator (operatorOf kind) :: right.tokens

namespace Tree

theorem mapTexts_binary {f : Bytes → Bytes} (hf : f [] = []) (kind : Kind) (l r : Tree) :
    (binary kind l r).mapTexts f = binary kind (l.mapTexts f) (r.mapTexts f) := by
  simp [binary, mapTexts, Redirections.mapTexts, Redirections.none, hf]

theorem Fits.mapTexts {rank : Rank} {t : Tree} (h : Fits rank t) {f : Bytes → Bytes}
    (hf : f [] = []) : Fits rank (t.mapTexts f) := by
  induction h with
  | plain w ws files => exact .plain (f w) (ws.map f) _
  | group files _ ih => exact .group _ ih
  | stage _ ih => exact .stage ih
  | pipeline _ ih => exact .pipeline ih
  | chain _ ih => exact .chain ih
  | pipe _ _ ihl ihr =>
    rw [Tree.pipe, mapTexts_binary hf]
    exact .pipe ihl ihr
  | connect hk _ _ ihl ihr =>
    rw [mapTexts_binary hf]
    exact .connect hk ihl ihr
  | sequence _ _ ihl ihr =>
    rw [Tree.sequence, mapTexts_binary hf]
    exact .sequence ihl ihr

end Tree

/-- Tokens with a blank before each. -/
def blankText (spell : Bytes → Bytes) (tokens : List Token) : Bytes :=
  tokens.flatMap fun token => 32 :: token.text spell

theorem blankText_append (spell : Bytes → Bytes) (xs ys : List Token) :
    blankText spell (xs ++ ys) = blankText spell xs ++ blankText spell ys :=
  List.flatMap_append

theorem blankText_cons (spell : Bytes → Bytes) (x : Token) (xs : List Token) :
    blankText spell (x :: xs) = 32 :: (x.text spell ++ blankText spell xs) :=
  rfl

/-- Tokens with single blanks between them. -/
def tokensText (spell : Bytes → Bytes) : List Token → Bytes
  | [] => []
  | token :: tokens => token.text spell ++ blankText spell tokens

theorem Redirections.print_eq_blankText (files : Redirections) :
    files.print = blankText quoted files.tokens := by
  have htarget (op : Token) (s : Bytes) :
      target (32 :: op.text quoted ++ [32]) s = blankText quoted (targetTokens op s) := by
    unfold target targetTokens
    split
    · rfl
    · simp [blankText, Token.text]
  simp only [tokens, blankText_append, ← htarget]
  rfl

theorem words_eq_blankText (w : Bytes) (ws : List Bytes) :
    32 :: Bytes.join " " ((w :: ws).map quoted) = blankText quoted ((w :: ws).map .word) := by
  induction ws generalizing w with
  | nil => simp [Bytes.join, blankText, Token.text]
  | cons w' ws ih =>
    have hjoin : Bytes.join " " ((w :: w' :: ws).map quoted) =
        quoted w ++ 32 :: Bytes.join " " ((w' :: ws).map quoted) := by
      simp only [List.map_cons, Bytes.join, List.append_assoc]
      rfl
    rw [hjoin, ih w']
    rfl

theorem Tree.Fits.print_eq_blankText {rank : Rank} {t : Tree} (h : Fits rank t) :
    32 :: t.print = blankText quoted t.tokens := by
  have between {kind : Kind} {l r : Tree} {op : Operator}
      (hp : (binary kind l r).print = l.print ++ (32 :: operatorText op ++ [32]) ++ r.print)
      (ht : (binary kind l r).tokens = l.tokens ++ .operator op :: r.tokens)
      (hl : 32 :: l.print = blankText quoted l.tokens)
      (hr : 32 :: r.print = blankText quoted r.tokens) :
      32 :: (binary kind l r).print = blankText quoted (binary kind l r).tokens := by
    rw [hp, ht, blankText_append, blankText_cons, ← hl, ← hr]
    simp [Token.text]
  induction h with
  | plain w ws files =>
    change 32 :: (Bytes.join " " ((w :: ws).map quoted) ++ files.print) =
      blankText quoted ((w :: ws).map .word ++ files.tokens)
    rw [blankText_append, ← words_eq_blankText, files.print_eq_blankText, List.cons_append]
  | @group inner files h ih =>
    change 32 :: ([40, 32] ++ inner.print ++ [32, 41] ++ files.print) =
      blankText quoted (.operator .open :: inner.tokens ++ .operator .close :: files.tokens)
    rw [blankText_append, blankText_cons, blankText_cons, ← ih, files.print_eq_blankText]
    change _ = 32 :: (40 :: 32 :: inner.print) ++ 32 :: (41 :: blankText quoted files.tokens)
    simp
  | stage _ ih | pipeline _ ih | chain _ ih => exact ih
  | pipe _ _ ihl ihr => exact between rfl rfl ihl ihr
  | connect hk _ _ ihl ihr =>
    rcases hk with rfl | rfl
    · exact between rfl rfl ihl ihr
    · exact between rfl rfl ihl ihr
  | sequence _ _ ihl ihr => exact between rfl rfl ihl ihr

/-- The text of a tree is the text of its tokens. -/
theorem Tree.Fits.print_eq_tokensText {rank : Rank} {t : Tree} (h : Fits rank t) :
    ∃ token tokens, t.tokens = token :: tokens ∧ t.print = tokensText quoted (token :: tokens) := by
  have hprint := h.print_eq_blankText
  cases ht : t.tokens with
  | nil =>
    rw [ht] at hprint
    cases hprint
  | cons token tokens =>
    rw [ht, blankText_cons] at hprint
    exact ⟨token, tokens, rfl, (List.cons.inj hprint).2⟩

end CommandShell
