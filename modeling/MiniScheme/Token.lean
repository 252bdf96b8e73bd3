/-!
# `MiniScheme.Token`: the words of source text

A token is a kind and the text it was read from. The seven kinds that
source text can hold have fixed names; a token made elsewhere may carry
any other name, which the reader of data then refuses.
-/

set_option autoImplicit false

namespace MiniScheme

/-- What a token is. -/
inductive Token.Kind where
  | quote
  | lparen
  | rparen
  | string
  | vector
  | boolean
  | symbol
  /-- A kind that no source text holds. -/
  | other (name : String)
deriving DecidableEq

/-- A kind and the text it was read from; a string keeps its quotes and
escapes. -/
structure Token where
  kind : Token.Kind
  text : String
deriving DecidableEq

namespace Token.Kind

/-- The kinds of source text. -/
def known : List Token.Kind := [quote, lparen, rparen, string, vector, boolean, symbol]

/-- The name of a kind. -/
def name : Token.Kind → String
  | quote => "quote"
  | lparen => "lparen"
  | rparen => "rparen"
  | string => "string"
  | vector => "vector"
  | boolean => "boolean"
  | symbol => "symbol"
  | other name => name

/-- The kind of a name; every name has one. -/
def ofName (n : String) : Token.Kind := (known.find? fun kind => kind.name == n).getD (other n)

end Token.Kind

end MiniScheme
