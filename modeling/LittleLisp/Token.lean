/-
# Tokens

A token is a piece of source text with its position and the value it stands for. The
reader splits a source into tokens; the text between them is white space, commas and
comments.

Key definitions: `Token`, `Token.ofAtom`, `Token.summary`, `Token.incomplete`.
-/
import LittleLisp.Value
import LittleLisp.Number.Literal
import LittleLisp.Text.Quoted

namespace LittleLisp

/-- The sorts of token. An embedding may bring in further ones, known by their number. -/
inductive TokenType where
  | listBegin
  | listEnd
  | identifier
  | keyword
  /-- Text that could not be read. -/
  | invalid
  | literal
  /-- A fault in place of a token. -/
  | error
  | other (code : Nat)
  deriving DecidableEq

namespace TokenType

/-- The sort with a number. -/
def ofCode : Nat → TokenType
  | 0 => .listBegin
  | 1 => .listEnd
  | 2 => .identifier
  | 3 => .keyword
  | 4 => .invalid
  | 5 => .literal
  | 6 => .error
  | n => .other n

/-- The name of a sort. -/
def name : TokenType → Text
  | .listBegin => "ListBegin"
  | .listEnd => "ListEnd"
  | .identifier => "Identifier"
  | .keyword => "Keyword"
  | .invalid => "Invalid"
  | .literal => "Literal"
  | .error => "Error"
  | .other n => Text.concat ["TokenType(", Text.ofNat n, ")"]

end TokenType

/-- A piece of source: its sort, position and spelling, and the value it stands for. -/
structure Token where
  type : TokenType
  pos : Position
  text : Text
  value : Value

namespace Token

/-- A token as users see it. -/
def summary (t : Token) : Text :=
  Text.concat [t.type.name, " ", t.text.quote, " at ", t.pos.text]

/-- The token of a word: a constant, a number, a keyword or an identifier. `marker` starts a
keyword. -/
def ofAtom (marker : Text) (pos : Position) (word : Text) : Token :=
  let literal (v : Value) : Token := ⟨.literal, pos, word, v⟩
  if word = "true" then literal (.bool true)
  else if word = "false" then literal (.bool false)
  else if word = "nil" then literal .nil
  else
    match (if Number.looksNumeric word then Number.ofLiteral? word else none) with
    | some x => literal (.number x)
    | none =>
      if marker.extendedBy word then ⟨.keyword, pos, word, .keyword word⟩
      else ⟨.identifier, pos, word, .undefined word⟩

/-- How a token changes the number of open lists. -/
def depthChange (t : Token) : Int :=
  match t.type with
  | .listBegin => 1
  | .listEnd => -1
  | _ => 0

/-- The number of lists that the tokens leave open. -/
def openLists (ts : List Token) : Int := ts.foldr (fun t n => t.depthChange + n) 0

/-- Whether the tokens leave a list open, so that more input is needed. -/
def incomplete (ts : List Token) : Bool := decide (0 < openLists ts)

end Token

end LittleLisp
