import Calculator.Session
import Calculator.Tables
import Calculator.Proofs.Safety
import Calculator.Proofs.Acceptance
import Calculator.Proofs.Precedence
import Calculator.Proofs.Trail
import Calculator.Proofs.Frame
import Calculator.Proofs.Refusal
import Calculator.Proofs.Online
import Calculator.Proofs.Preservation
import Calculator.Proofs.Range
import Calculator.Proofs.Slices
import Calculator.Proofs.Wrapping
import Calculator.Proofs.Uniformity
import Calculator.Proofs.Respacing
import Calculator.Setting.Schema
import Calculator.Proofs.Validation
import Calculator.Machine
import Calculator.Proofs.Cloning
import Calculator.Proofs.History
import Calculator.Proofs.Isolation
import Calculator.Proofs.InsertionOrder
import Calculator.Proofs.TwosComplement
import Calculator.Proofs.Power
import Calculator.Proofs.Parentheses
import Calculator.Proofs.SignedProduct
import Calculator.Proofs.Diagnosis
import Calculator.Proofs.Termination
import Calculator.Proofs.FirstLine
import Calculator.Proofs.OperatorCalls
import Calculator.Proofs.Context
import Calculator.Proofs.Warnings
import Calculator.Proofs.Substitution
import Calculator.Proofs.Rejection
import Calculator.Proofs.RoundTrip
import Calculator.Proofs.SeededSequence
import Calculator.Proofs.FloatWords
import Calculator.Proofs.OneShot
import Calculator.Proofs.Unwinding
import Calculator.Proofs.NumericPrefix
