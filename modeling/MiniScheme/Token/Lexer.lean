import MiniScheme.ReadError
import MiniScheme.Text.Blank
import MiniScheme.Token

/-!
# `MiniScheme.Token.Lexer`: from characters to tokens

The lexer is an automaton that takes one character at a time, so lexing
is a fold over the text and an appended text continues from the state
that the first one left.

Between tokens, a delimiter starts its own token, a semicolon a comment
up to the next newline, and any other character a word: the longest run
of characters that are neither blanks nor delimiters. A word is a symbol
unless it is one of the four spellings of the booleans; a word `#` right
before a parenthesis opens a vector. A string runs to the first double
quote that no backslash escapes.

`lex` gives the tokens of a text and its fault: only a string that is
never closed is one, and the tokens before it are kept.
-/

set_option autoImplicit false

namespace MiniScheme

/-- The characters that end a word and start something else. -/
def isDelimiter (c : Char) : Bool :=
  c = '(' || c = ')' || c = '\x27' || c = '"' || c = ';'

/-- A character that words are made of. -/
def isWordChar (c : Char) : Bool := !Text.isBlank c && !isDelimiter c

/-- The spellings of the booleans. -/
def booleanWords : List String := ["#t", "#f", "#true", "#false"]

/-- The token of a whole word. -/
def Token.ofWord (word : String) : Token :=
  if word ∈ booleanWords then ⟨.boolean, word⟩ else ⟨.symbol, word⟩

/-- Where the lexer stands. What it has read of a token is kept with the
last character first. -/
inductive Scan.Mode where
  | between
  | comment
  | word (read : List Char)
  | string (start : Nat) (read : List Char) (escaped : Bool)
deriving DecidableEq

/-- The state of the lexer: where it stands, how many characters it has
read, and the tokens so far, the last one first. -/
structure Scan where
  mode : Scan.Mode := .between
  position : Nat := 0
  tokens : List Token := []
deriving DecidableEq

namespace Scan

/-- The text of characters kept with the last one first. -/
def textOf (read : List Char) : String := String.ofList read.reverse

/-- A character between tokens: the tokens it completes are put before
`tokens`. -/
def start (position : Nat) (tokens : List Token) (c : Char) : Mode × List Token :=
  if Text.isBlank c then (.between, tokens)
  else if c = ';' then (.comment, tokens)
  else if c = '\x27' then (.between, ⟨.quote, "'"⟩ :: tokens)
  else if c = '(' then (.between, ⟨.lparen, "("⟩ :: tokens)
  else if c = ')' then (.between, ⟨.rparen, ")"⟩ :: tokens)
  else if c = '"' then (.string position [c] false, tokens)
  else (.word [c], tokens)

/-- The next character, wherever the lexer stands. -/
def next (mode : Mode) (position : Nat) (tokens : List Token) (c : Char) : Mode × List Token :=
  match mode with
  | .between => start position tokens c
  | .comment => (if c = '\n' then .between else .comment, tokens)
  | .word read =>
    if isWordChar c then (.word (c :: read), tokens)
    else if read = ['#'] ∧ c = '(' then (.between, ⟨.vector, "#("⟩ :: tokens)
    else start position (Token.ofWord (textOf read) :: tokens) c
  | .string first read escaped =>
    if !escaped && c = '"' then (.between, ⟨.string, textOf (c :: read)⟩ :: tokens)
    else (.string first (c :: read) (!escaped && c = '\\'), tokens)

/-- Takes one character. -/
def feed (s : Scan) (c : Char) : Scan :=
  let (mode, tokens) := next s.mode s.position s.tokens c
  { mode, tokens, position := s.position + 1 }

/-- The tokens, when the text ends here. -/
def finish (s : Scan) : List Token × Option ReadError :=
  match s.mode with
  | .between | .comment => (s.tokens.reverse, none)
  | .word read => ((Token.ofWord (textOf read) :: s.tokens).reverse, none)
  | .string first _ _ => (s.tokens.reverse, some (.openString first))

/-- Takes characters one after the other. -/
def feedAll (s : Scan) (cs : List Char) : Scan := cs.foldl feed s

/-- Appended text continues from where the text before it ends. -/
theorem feedAll_append (s : Scan) (cs ds : List Char) :
    s.feedAll (cs ++ ds) = (s.feedAll cs).feedAll ds := by
  simp [feedAll, List.foldl_append]

end Scan

/-- The tokens of a text, and its fault if it ends inside a string. -/
def lex (source : String) : List Token × Option ReadError :=
  (Scan.feedAll {} source.toList).finish

end MiniScheme
