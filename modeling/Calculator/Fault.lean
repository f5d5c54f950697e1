import Calculator.Text

/-!
# Errors

Every failure that reading, evaluating or configuring an expression can report, by cause.

* `Error.message`: the wording, in one place.
* `Error.code`, `Error.isSemantic`: the classification.
* `Fault`: what may stop an evaluation, library errors and exceptions of client code alike.
-/

namespace Calculator

/-- The machine-readable classes of errors. -/
inductive ErrorCode
  | lexical | grammar | notAccepted | unknownVariable | unknownFunction | assignmentTarget
  | notCallable | evaluation | invalidOptions
  /-- A class of the client's own. -/
  | other (name : Text)
  deriving DecidableEq, Repr

/-- A step on the way from the root of a configuration to a faulty part of it. -/
inductive PathStep
  | key (name : Text)
  | index (position : Int)
  deriving DecidableEq, Repr

/-- The kinds of findings about a configuration. -/
inductive IssueKind
  | invalidType | invalidString | unrecognizedKeys | custom
  | other (name : Text)
  deriving DecidableEq, Repr

/-- One finding about a configuration. -/
structure Issue where
  kind : IssueKind
  path : List PathStep
  message : Text
  deriving DecidableEq, Repr

/-- Why no token could be read. -/
inductive LexicalCause
  /-- A code unit that starts no token was met by the automaton. -/
  | strayInput (fragment : Text) (position : Nat)
  /-- An integer literal exceeds the greatest 64-bit integer. -/
  | literalOutOfRange (literal : Text)
  /-- A numeric type of the client refuses a literal in its own words. -/
  | other (message fragment : Text)
  deriving DecidableEq, Repr

/-- The floats that are no numbers. -/
inductive NonFinite
  | notANumber | infinity | negativeInfinity
  deriving DecidableEq, Repr

/-- Arithmetic that a numeric type cannot carry out. -/
inductive EvaluationCause
  | divisionByZero
  | remainderByZero
  | zeroToNegativePower
  | notAnInteger (result : NonFinite)
  /-- A numeric type of the client refuses an operation in its own words. -/
  | other (message : Text)
  deriving DecidableEq, Repr

/-- The errors of the library. -/
inductive Error
  | lexical (cause : LexicalCause)
  /-- No transition leads from the state with the token ahead. -/
  | grammar (state token input : Text)
  | notAccepted (input : Text)
  | unknownVariable (name : Text)
  | unknownFunction (name : Text) (arity : Int)
  | assignmentTarget
  | notCallable
  | evaluation (cause : EvaluationCause)
  | invalidOptions (issues : List Issue)
  /-- An error in the client's own words. -/
  | client (message : Text) (code : ErrorCode) (semantic : Bool)
  deriving DecidableEq, Repr

namespace PathStep

/-- A name as it is, an index as a numeral. -/
def text : PathStep → Text
  | key name => name
  | index i => Text.ofInt i

end PathStep

namespace IssueKind

/-- The name under which the kind is reported. -/
def text : IssueKind → Text
  | invalidType => Text.ofString "invalid_type"
  | invalidString => Text.ofString "invalid_string"
  | unrecognizedKeys => Text.ofString "unrecognized_keys"
  | custom => Text.ofString "custom"
  | other name => name

end IssueKind

namespace Issue

/-- The path joined by points, or `(root)` where that is empty. -/
def place (i : Issue) : Text :=
  match Text.join (Text.ofString ".") (i.path.map PathStep.text) with
  | [] => Text.ofString "(root)"
  | t => t

/-- One finding as it stands in the message of an options error. -/
def text (i : Issue) : Text := i.place ++ Text.ofString ": " ++ i.message

end Issue

namespace ErrorCode

/-- The name under which the code is reported. -/
def text : ErrorCode → Text
  | lexical => Text.ofString "LEXICAL"
  | grammar => Text.ofString "GRAMMAR"
  | notAccepted => Text.ofString "NOT_ACCEPTED"
  | unknownVariable => Text.ofString "UNKNOWN_VARIABLE"
  | unknownFunction => Text.ofString "UNKNOWN_FUNCTION"
  | assignmentTarget => Text.ofString "ASSIGNMENT_TARGET"
  | notCallable => Text.ofString "NOT_CALLABLE"
  | evaluation => Text.ofString "EVALUATION"
  | invalidOptions => Text.ofString "INVALID_OPTIONS"
  | other name => name

end ErrorCode

namespace LexicalCause

/-- The wording of the cause. -/
def message : LexicalCause → Text
  | strayInput fragment position =>
    Text.ofString "Invalid input in lexer: " ++ fragment.quoted ++ Text.ofString " at position " ++
      Text.ofNat position ++ Text.ofString "."
  | literalOutOfRange literal =>
    Text.ofString "Integer literal " ++ literal.quoted ++ Text.ofString " is out of range."
  | other message _ => message

/-- The piece of input at fault. -/
def fragment : LexicalCause → Text
  | strayInput fragment _ => fragment
  | literalOutOfRange literal => literal
  | other _ fragment => fragment

end LexicalCause

namespace NonFinite

/-- The name of the float. -/
def text : NonFinite → Text
  | notANumber => Text.ofString "NaN"
  | infinity => Text.ofString "Infinity"
  | negativeInfinity => Text.ofString "-Infinity"

end NonFinite

namespace EvaluationCause

/-- The wording of the cause. -/
def message : EvaluationCause → Text
  | divisionByZero => Text.ofString "Integer division by zero."
  | remainderByZero => Text.ofString "Integer remainder by zero."
  | zeroToNegativePower => Text.ofString "Zero raised to a negative power."
  | notAnInteger result =>
    Text.ofString "Result " ++ result.text ++ Text.ofString " is not representable as an integer."
  | other message => message

end EvaluationCause

namespace Error

/-- The class of an error. -/
def code : Error → ErrorCode
  | lexical _ => .lexical
  | grammar _ _ _ => .grammar
  | notAccepted _ => .notAccepted
  | unknownVariable _ => .unknownVariable
  | unknownFunction _ _ => .unknownFunction
  | assignmentTarget => .assignmentTarget
  | notCallable => .notCallable
  | evaluation _ => .evaluation
  | invalidOptions _ => .invalidOptions
  | client _ code _ => code

/-- Whether the error is about the meaning of a well-formed expression. -/
def isSemantic : Error → Bool
  | unknownVariable _ | unknownFunction _ _ | assignmentTarget | notCallable | evaluation _ => true
  | client _ _ semantic => semantic
  | _ => false

/-- The wording of an error. -/
def message : Error → Text
  | lexical cause => cause.message
  | grammar state token input =>
    Text.ofString "No transition from " ++ state ++ Text.ofString " and look-ahead terminal " ++
      token ++ Text.ofString ". Input expression: " ++ input.quoted ++ Text.ofString "."
  | notAccepted input =>
    Text.ofString "Expression " ++ input.quoted ++ Text.ofString " was not accepted."
  | unknownVariable name => Text.ofString "Unknown variable " ++ name.quoted ++ Text.ofString "."
  | unknownFunction name arity =>
    Text.ofString "Unknown function " ++ name.quoted ++ Text.ofString " taking " ++
      Text.ofInt arity ++
      Text.ofString (if arity = 1 then " argument." else " arguments.")
  | assignmentTarget => Text.ofString "Assignment needs a variable identifier."
  | notCallable => Text.ofString "Function call needs an identifier."
  | evaluation cause => cause.message
  | invalidOptions issues =>
    Text.ofString "Invalid parser options: " ++
      Text.join (Text.ofString "; ") (issues.map Issue.text)
  | client message _ _ => message

end Error

/-- What may stop an evaluation. -/
inductive Fault
  | error (e : Error)
  /-- An exception of client code that is no error of the library. -/
  | foreign (name message : Text)
  /-- A text that is no numeral was to be read as an integer. -/
  | malformedInteger (text : Text)
  /-- A random source gave a float that is no number where a word was needed. -/
  | malformedWord (kind : NonFinite)
  /-- A random source went on giving draws that had to be rejected. -/
  | starved
  deriving DecidableEq, Repr

/-- Library errors become results; other exceptions pass. -/
def Fault.catchErrors {α : Type} : Except Fault α → Except Fault (Except Error α)
  | .ok a => .ok (.ok a)
  | .error (.error e) => .ok (.error e)
  | .error f => .error f

end Calculator
