import Entail.Bits
import Entail.Status
import Entail.Term

/-!
# Failures

Every operation that can be refused says why. A refusal has a cause, from which follow its published
code, its message and the record of the operands at fault.
-/

namespace Entail

/-- Published codes of failures. -/
inductive ErrorCode where
  | noError
  | invalidType
  | invalidTerm
  | invalidBitExtract
  | maxBvSizeExceeded
  | degreeOverflow
  | posIntRequired
  | functionRequired
  | variableRequired
  | bitvectorRequired
  | wrongNumberOfArguments
  | typeMismatch
  | incompatibleTypes
  | duplicateVariable
  | incompatibleBvSizes
  | bvTypeRequired
  | badTermDecref
  | badTypeDecref
  | invalidTermOp
  | freeVarInFormula
  | formulaNotSupported
  | quantifierNotTopLevel
  | invalidOperation
  | operationNotSupported
  | invalidConfig
  | unknownParameter
  | invalidParameterValue
  | evalUnknownTerm
  | evalFreeVarInTerm
  | evalQuantifier
  | evalFailed
  | outputError
  | internalException
deriving DecidableEq, Inhabited

namespace ErrorCode

/-- Every code, in increasing order of number. -/
def all : List ErrorCode :=
  [.noError, .invalidType, .invalidTerm, .invalidBitExtract, .maxBvSizeExceeded, .degreeOverflow,
    .posIntRequired,
    .functionRequired, .variableRequired, .bitvectorRequired, .wrongNumberOfArguments,
      .typeMismatch,
    .incompatibleTypes, .duplicateVariable, .incompatibleBvSizes, .bvTypeRequired, .badTermDecref,
      .badTypeDecref,
    .invalidTermOp, .freeVarInFormula, .formulaNotSupported, .quantifierNotTopLevel,
      .invalidOperation,
    .operationNotSupported, .invalidConfig, .unknownParameter, .invalidParameterValue,
      .evalUnknownTerm,
    .evalFreeVarInTerm, .evalQuantifier, .evalFailed, .outputError, .internalException]

/-- Published number of a code. -/
def number : ErrorCode → Nat
  | .noError => 0
  | .invalidType => 1
  | .invalidTerm => 2
  | .invalidBitExtract => 12
  | .maxBvSizeExceeded => 15
  | .degreeOverflow => 16
  | .posIntRequired => 18
  | .functionRequired => 21
  | .variableRequired => 23
  | .bitvectorRequired => 25
  | .wrongNumberOfArguments => 27
  | .typeMismatch => 28
  | .incompatibleTypes => 29
  | .duplicateVariable => 30
  | .incompatibleBvSizes => 31
  | .bvTypeRequired => 38
  | .badTermDecref => 39
  | .badTypeDecref => 40
  | .invalidTermOp => 41
  | .freeVarInFormula => 300
  | .formulaNotSupported => 301
  | .quantifierNotTopLevel => 302
  | .invalidOperation => 400
  | .operationNotSupported => 401
  | .invalidConfig => 500
  | .unknownParameter => 501
  | .invalidParameterValue => 502
  | .evalUnknownTerm => 600
  | .evalFreeVarInTerm => 601
  | .evalQuantifier => 602
  | .evalFailed => 605
  | .outputError => 9000
  | .internalException => 9999

/-- Published name of a code. -/
def name : ErrorCode → String
  | .noError => "NoError"
  | .invalidType => "InvalidType"
  | .invalidTerm => "InvalidTerm"
  | .invalidBitExtract => "InvalidBitExtract"
  | .maxBvSizeExceeded => "MaxBvSizeExceeded"
  | .degreeOverflow => "DegreeOverflow"
  | .posIntRequired => "PosIntRequired"
  | .functionRequired => "FunctionRequired"
  | .variableRequired => "VariableRequired"
  | .bitvectorRequired => "BitvectorRequired"
  | .wrongNumberOfArguments => "WrongNumberOfArguments"
  | .typeMismatch => "TypeMismatch"
  | .incompatibleTypes => "IncompatibleTypes"
  | .duplicateVariable => "DuplicateVariable"
  | .incompatibleBvSizes => "IncompatibleBvSizes"
  | .bvTypeRequired => "BvTypeRequired"
  | .badTermDecref => "BadTermDecref"
  | .badTypeDecref => "BadTypeDecref"
  | .invalidTermOp => "InvalidTermOp"
  | .freeVarInFormula => "CtxFreeVarInFormula"
  | .formulaNotSupported => "CtxFormulaNotSupported"
  | .quantifierNotTopLevel => "CtxQuantifierNotTopLevel"
  | .invalidOperation => "CtxInvalidOperation"
  | .operationNotSupported => "CtxOperationNotSupported"
  | .invalidConfig => "CtxInvalidConfig"
  | .unknownParameter => "CtxUnknownParameter"
  | .invalidParameterValue => "CtxInvalidParameterValue"
  | .evalUnknownTerm => "EvalUnknownTerm"
  | .evalFreeVarInTerm => "EvalFreeVarInTerm"
  | .evalQuantifier => "EvalQuantifier"
  | .evalFailed => "EvalFailed"
  | .outputError => "OutputError"
  | .internalException => "InternalException"

/-- The code with a given number. -/
def ofNumber? (n : Nat) : Option ErrorCode := all.find? fun c => c.number == n

theorem ofNumber?_number (c : ErrorCode) : ofNumber? c.number = some c := by cases c <;> rfl

end ErrorCode

/-- A failure as it is kept on record: its code and the operands at fault. -/
structure Report where
  code : ErrorCode
  term1 : Option Term := none
  type1 : Option Ty := none
  term2 : Option Term := none
  type2 : Option Ty := none
  badval : Int := 0
deriving Inhabited

/-- The record before any failure. -/
def Report.empty : Report := { code := .noError }

/-- Why an operation on the term store was refused. -/
inductive TermError where
  | invalidTerm (t : Term)
  | invalidType (ty : Ty)
  | typeMismatch (t : Term) (expected : Ty)
  | incompatibleTypes (left : Term) (leftType : Ty) (right : Term) (rightType : Ty)
  | bitvectorRequired (t : Term)
  | incompatibleWidths (left : Term) (leftType : Ty) (right : Term) (rightType : Ty)
  | positiveRequired (got : Nat)
  | widthTooLarge (got : Nat)
  | degreeTooLarge (got : Nat)
  | functionRequired (t : Term)
  | wrongArity (f : Term) (expected got : Nat)
  | variableRequired (t : Term)
  | duplicateVariable (t : Term)
  | bitOutOfRange (t : Term) (i : Nat)
  | notApplicable (t : Term)
  | unreferencedTerm (t : Term)
  | unreferencedType (ty : Ty)
  /-- A dead handle stands where the caller promises a live one. Every other cause is an answer to
  the caller; this one is a broken promise. -/
  | dangling (t : Term)
deriving DecidableEq

namespace TermError

/-- Published code of a cause. -/
def code : TermError → ErrorCode
  | .invalidTerm _ => .invalidTerm
  | .invalidType _ => .invalidType
  | .typeMismatch .. => .typeMismatch
  | .incompatibleTypes .. => .incompatibleTypes
  | .bitvectorRequired _ => .bitvectorRequired
  | .incompatibleWidths .. => .incompatibleBvSizes
  | .positiveRequired _ => .posIntRequired
  | .widthTooLarge _ => .maxBvSizeExceeded
  | .degreeTooLarge _ => .degreeOverflow
  | .functionRequired _ => .functionRequired
  | .wrongArity .. => .wrongNumberOfArguments
  | .variableRequired _ => .variableRequired
  | .duplicateVariable _ => .duplicateVariable
  | .bitOutOfRange .. => .invalidBitExtract
  | .notApplicable _ => .invalidTermOp
  | .unreferencedTerm _ => .badTermDecref
  | .unreferencedType _ => .badTypeDecref
  | .dangling _ => .internalException

/-- What a cause says to the user. -/
def message : TermError → String
  | .invalidTerm t => s!"invalid term {t.text}"
  | .invalidType ty => s!"invalid type {ty.text}"
  | .typeMismatch t ty => s!"term {t.text} does not have the expected type {ty.text}"
  | .incompatibleTypes a ta b tb =>
    s!"incompatible types: {a.text} has type {ta.text} but {b.text} has type {tb.text}"
  | .bitvectorRequired t => s!"term {t.text} is not a bitvector"
  | .incompatibleWidths a _ b _ => s!"bitvector sizes differ between {a.text} and {b.text}"
  | .positiveRequired n => s!"a positive integer is required (got {n})"
  | .widthTooLarge n => s!"bitvector size {n} exceeds the maximal size"
  | .degreeTooLarge n => s!"degree {n} is too large"
  | .functionRequired t => s!"term {t.text} is not a function"
  | .wrongArity f expected got => s!"function {f.text} expects {expected} arguments, got {got}"
  | .variableRequired t => s!"term {t.text} is not a variable"
  | .duplicateVariable t => s!"variable {t.text} occurs twice"
  | .bitOutOfRange t i => s!"bit index {i} is out of range for {t.text}"
  | .notApplicable t => s!"operation is not applicable to term {t.text}"
  | .unreferencedTerm t => s!"reference count of term {t.text} is already zero"
  | .unreferencedType ty => s!"reference count of type {ty.text} is already zero"
  | .dangling t => s!"{t.text} is no longer in the store"

/-- The record of a cause. Numbers at fault are kept as signed 64-bit words. -/
def report (e : TermError) : Report :=
  match e with
  | .invalidTerm t | .bitvectorRequired t | .functionRequired t | .variableRequired t
    | .duplicateVariable t
  | .notApplicable t | .unreferencedTerm t | .dangling t => { code := e.code, term1 := some t }
  | .invalidType ty | .unreferencedType ty => { code := e.code, type1 := some ty }
  | .typeMismatch t ty => { code := e.code, term1 := some t, type1 := some ty }
  | .incompatibleTypes a ta b tb | .incompatibleWidths a ta b tb =>
    { code := e.code, term1 := some a, type1 := some ta, term2 := some b, type2 := some tb }
  | .positiveRequired n | .widthTooLarge n | .degreeTooLarge n =>
    { code := e.code, badval := Bits.signed 64 n }
  | .wrongArity f _ got => { code := e.code, term1 := some f, badval := got }
  | .bitOutOfRange t i => { code := e.code, term1 := some t, badval := i }

end TermError

/-- Why an operation on a context, a model or a configuration was refused. -/
inductive Failure where
  | term (cause : TermError)
  | freeVariable (t : Term)
  | notSupported (t : Term)
  | nestedQuantifier (t : Term)
  | invalidOperation (status : Status)
  | operationNotSupported
  /-- A configuration text that is not well formed, or has a value of the wrong sort. -/
  | malformedConfig
  | unknownParameter (name : String)
  | invalidValue (name value : String)
  | evalUnknown (t : Term)
  | evalFreeVariable (t : Term)
  | evalQuantifier (t : Term)
  | evalFailed (t : Term)
  | output (reason : String)
  | invalidContext
  | invalidModel
  /-- The search used up the number of steps it was given. -/
  | outOfFuel
  /-- The search met a conflict that its assignment does not explain. -/
  | unexplainedConflict
deriving DecidableEq

namespace Failure

/-- Published code of a cause. -/
def code : Failure → ErrorCode
  | .term e => e.code
  | .freeVariable _ => .freeVarInFormula
  | .notSupported _ => .formulaNotSupported
  | .nestedQuantifier _ => .quantifierNotTopLevel
  | .invalidOperation _ => .invalidOperation
  | .operationNotSupported => .operationNotSupported
  | .malformedConfig => .invalidConfig
  | .unknownParameter _ => .unknownParameter
  | .invalidValue .. => .invalidParameterValue
  | .evalUnknown _ => .evalUnknownTerm
  | .evalFreeVariable _ => .evalFreeVarInTerm
  | .evalQuantifier _ => .evalQuantifier
  | .evalFailed _ => .evalFailed
  | .output _ => .outputError
  | .invalidContext | .invalidModel | .outOfFuel | .unexplainedConflict => .internalException

/-- What a cause says to the user. -/
def message : Failure → String
  | .term e => e.message
  | .freeVariable t => s!"formula {t.text} contains a free variable"
  | .notSupported t => s!"formula {t.text} is not supported by the context"
  | .nestedQuantifier t => s!"quantifier {t.text} does not occur at the top level of an assertion"
  | .invalidOperation s => s!"operation is not allowed while the context is {s.name}"
  | .operationNotSupported => "operation is not supported by the context configuration"
  | .malformedConfig => "failed to parse configuration"
  | .unknownParameter name => s!"unknown parameter '{name}'"
  | .invalidValue name value => s!"invalid value '{value}' for parameter '{name}'"
  | .evalUnknown t => s!"term {t.text} has no value in the model"
  | .evalFreeVariable t => s!"term {t.text} contains a free variable"
  | .evalQuantifier t => s!"term {t.text} contains a quantifier"
  | .evalFailed t => s!"evaluation of {t.text} failed"
  | .output reason => s!"output error: {reason}"
  | .invalidContext => "the context handle is no longer valid"
  | .invalidModel => "the model handle is no longer valid"
  | .outOfFuel => "the search was given too few steps"
  | .unexplainedConflict => "the search met a conflict that it cannot explain"

/-- The record of a cause. -/
def report (e : Failure) : Report :=
  match e with
  | .term cause => cause.report
  | .freeVariable t | .notSupported t | .nestedQuantifier t | .evalUnknown t | .evalFreeVariable t
  | .evalQuantifier t | .evalFailed t => { code := e.code, term1 := some t }
  | _ => { code := e.code }

/-- Whether a caller broke a promise, so that no answer is due. -/
def isBrokenPromise : Failure → Bool
  | .term (.dangling _) | .outOfFuel | .unexplainedConflict => true
  | _ => false

end Failure
end Entail
