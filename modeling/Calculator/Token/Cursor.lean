import Calculator.Arithmetic.NumericType
import Calculator.Token.Basic

/-!
# Reading tokens

Tokens are read one at a time. A token grows by single code units for as long as the whole of it
belongs to some family.

* `NumericType.families`: the families that a whole text belongs to.
* `Cursor.next`: one token, with the cursor behind it.
* `tokenize`: the tokens of a text up to the first end or invalid token.
-/

namespace Calculator

/-- A place in the input: its offset and the input from there on. -/
structure Cursor where
  position : Nat
  rest : Text
  deriving DecidableEq, Repr

namespace Cursor

/-- The start of a text. -/
def start (input : Text) : Cursor := ⟨0, input⟩

/-- The place some code units further on. -/
def advance (c : Cursor) (count : Nat) : Cursor := ⟨c.position + count, c.rest.drop count⟩

/-- The place behind the spaces and tabs. -/
def skipBlanks (c : Cursor) : Cursor := c.advance (c.rest.takeWhile Text.isBlank).length

end Cursor

variable {σ T : Type}

/-- Every family that the whole text belongs to. -/
def NumericType.families (type : NumericType σ T) (text : Text) : List Family :=
  (if type.literal text then [.number] else []) ++
    (if text.isIdentifier then [.identifier] else []) ++
      if (Punctuation.ofText? text).isSome then [.punctuation] else []

/-- How many units can be added to `taken`, one after the other, so that each text on the way
belongs to a family. -/
def NumericType.growth (type : NumericType σ T) (taken : Text) : Text → Nat
  | [] => 0
  | u :: rest =>
    if type.families (taken ++ [u]) = [] then 0 else type.growth (taken ++ [u]) rest + 1

/-- What reading a token gives. -/
structure Fetch (T : Type) where
  token : Except Fault (Token T)
  warning : Option Ambiguity
  cursor : Cursor

/-- The form that a text has in a family. -/
def NumericType.lexeme (type : NumericType σ T) (text : Text) : Family → Except Fault (Lexeme T)
  | .number => (type.parseLiteral text).map (.number · text)
  | .identifier => .ok (.identifier text)
  | .punctuation =>
    match Punctuation.ofText? text with
    | some p => .ok (.punctuation p)
    | none => .ok (.invalid text)

/-- The token that starts at the cursor, which stands neither at a blank nor at an end: the text
that grows from there, in the first of its families, or else a single invalid unit. -/
def Cursor.munch (type : NumericType σ T) (c : Cursor) : Fetch T :=
  let text := c.rest.take (type.growth [] c.rest)
  match text, type.families text with
  | _ :: _, family :: others =>
    { token := (type.lexeme text family).map (⟨·, c.position⟩)
      warning := if others.isEmpty then none else some ⟨text, c.position, family :: others⟩
      cursor := c.advance text.length }
  | _, _ => ⟨.ok ⟨.invalid (c.rest.take 1), c.position⟩, none, c.advance 1⟩

/-- The next token. A line feed ends the expression, as does the end of the input. -/
def Cursor.next (type : NumericType σ T) (c : Cursor) : Fetch T :=
  let c := c.skipBlanks
  match c.rest with
  | [] => ⟨.ok ⟨.finish, c.position⟩, none, c⟩
  | u :: _ =>
    if u = Text.newline then ⟨.ok ⟨.finish, c.position⟩, none, c.advance 1⟩
    else c.munch type

/-! ## Whole texts -/

/-- How a sequence of tokens stops. -/
inductive Ending
  /-- No more tokens were asked for. -/
  | unfinished
  /-- The last token was followed by nothing. -/
  | complete
  | failed (f : Fault)

/-- Tokens read in a row, with the warnings that came up. -/
structure TokenList (T : Type) where
  tokens : List (Token T)
  warnings : List Ambiguity
  ending : Ending

/-- At most the given number of tokens from the cursor on. An end or invalid token is the last one,
which shows when one more token is asked for. -/
def Cursor.take (type : NumericType σ T) : Nat → Cursor → TokenList T
  | 0, _ => ⟨[], [], .unfinished⟩
  | count + 1, c =>
    let fetch := c.next type
    match fetch.token with
    | .error f => ⟨[], fetch.warning.toList, .failed f⟩
    | .ok token =>
      let rest :=
        if token.isLast then ⟨[], [], if count = 0 then .unfinished else .complete⟩
        else Cursor.take type count fetch.cursor
      ⟨token :: rest.tokens, fetch.warning.toList ++ rest.warnings, rest.ending⟩

/-- The tokens of a text. There are no more of them than code units and one end. -/
def tokenize (type : NumericType σ T) (input : Text) : TokenList T :=
  (Cursor.start input).take type (input.length + 2)

end Calculator
