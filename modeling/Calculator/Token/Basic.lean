import Calculator.Fault
import Calculator.Token.Punctuation

/-!
# Tokens

* `Token`: a piece of input with its place.
* `Terminal`: what the grammar sees of a token.
* `Family`, `Ambiguity`: a text that belongs to several classes of tokens, and the warning about it.
-/

namespace Calculator

/-- What the grammar sees of a token. -/
inductive Terminal
  | number
  | identifier
  | punctuation (p : Punctuation)
  | finish
  | invalid
  deriving DecidableEq, Repr

namespace Terminal

/-- The terminal as grammar errors write it. -/
def describe : Terminal → Text
  | number => Text.ofString "number"
  | identifier => Text.ofString "identifier"
  | punctuation p => [39, p.unit, 39]
  | finish => Text.ofString "end"
  | invalid => Text.ofString "invalid"

/-- The binary operator that the terminal stands for. -/
def binaryOp? : Terminal → Option BinaryOp
  | punctuation p => p.binaryOp?
  | _ => none

/-- The terminals that may follow a complete operand: binary operators, a closing parenthesis, a
comma and the end. -/
def isFollow : Terminal → Bool
  | finish => true
  | punctuation .rightParen | punctuation .comma => true
  | t => t.binaryOp?.isSome

end Terminal

/-- The form of a token. -/
inductive Lexeme (T : Type)
  | number (value : T) (text : Text)
  | identifier (name : Text)
  | punctuation (p : Punctuation)
  /-- The end of the line or of the input. -/
  | finish
  /-- A code unit that starts no token. -/
  | invalid (text : Text)

/-- A form found at a position of the input. -/
structure Token (T : Type) where
  lexeme : Lexeme T
  position : Nat

namespace Lexeme

variable {T : Type}

/-- What the grammar sees of a form. -/
def terminal : Lexeme T → Terminal
  | number _ _ => .number
  | identifier _ => .identifier
  | punctuation p => .punctuation p
  | finish => .finish
  | invalid _ => .invalid

/-- The piece of input that has the form. -/
def text : Lexeme T → Text
  | number _ t | identifier t | invalid t => t
  | punctuation p => [p.unit]
  | finish => []

end Lexeme

namespace Token

variable {T : Type}

/-- What the grammar sees of a token. -/
def terminal (t : Token T) : Terminal := t.lexeme.terminal

/-- Whether no token is read after this one. -/
def isLast (t : Token T) : Bool := t.terminal == .finish || t.terminal == .invalid

end Token

/-- The classes of tokens; where a text belongs to several, the first of them counts. -/
inductive Family
  | number | identifier | punctuation
  deriving DecidableEq, Repr

/-- The name of a family in a warning. -/
def Family.text : Family → Text
  | number => Text.ofString "number"
  | identifier => Text.ofString "ident"
  | punctuation => Text.ofString "punctuation"

/-- The warning that a token belongs to several families. -/
structure Ambiguity where
  fragment : Text
  position : Nat
  families : List Family
  deriving DecidableEq, Repr

namespace Ambiguity

/-- The wording of the warning. -/
def message (a : Ambiguity) : Text :=
  Text.ofString "Ambiguous match in lexer for token " ++ a.fragment.quoted ++ Text.ofString "."

/-- The line that is printed where no receiver of warnings is given. -/
def consoleLine (a : Ambiguity) : Text := Text.ofString "Warning: " ++ a.message

end Ambiguity

end Calculator
