import ExprTree.Kind
import ExprTree.Ty

set_option autoImplicit false

/-! # Errors

Why a tree cannot be compiled, and why a run of compiled code fails. Each cause carries the data
its message needs. A run that does not end has no error to report; it stops `unfinished`.
-/

namespace ExprTree

/-- Why a tree cannot be compiled. -/
inductive CompileError
  | parameterOutOfScope (name : String)
  | unsupported (kind : Kind) (reason : String)
  | missingTruthOperators (ty : Ty)
deriving DecidableEq

/-- Why a run fails. -/
inductive RuntimeError
  | argumentCount (expected got : Nat)
  | argumentType (index : Nat) (expected : Ty) (got : String)
  | typeMismatch (expected got : String)
  | overflow
  | divideByZero
  | nullReference
  | nullValue
  | invalidCast (source : String) (target : Ty)
  | indexOutOfRange (index : Int) (length : Nat)
  | negativeArraySize (size : Int)
  | arrayTooLarge (size : Nat)
  | notCallable (ty : String)
  | recursionLimit (limit : Nat)
  /-- A captured variable is not reachable from the running scope. -/
  | missingScope
  /-- An error of the host's own. -/
  | native (message : String)
deriving DecidableEq

/-- Any failure of compiling or running a tree. -/
inductive Error
  | compile (e : CompileError)
  | runtime (e : RuntimeError)
deriving DecidableEq

/-- Why a run gives no value. -/
inductive Stop (ε : Type)
  /-- It fails with an error. -/
  | raised (e : ε)
  /-- It does not end, or not within the nesting that is followed. Nobody gets an answer. -/
  | unfinished
deriving DecidableEq

/-- The same with another error. -/
def Stop.map {ε δ : Type} (f : ε → δ) : Stop ε → Stop δ
  | raised e => raised (f e)
  | unfinished => unfinished

/-- A text in double quotes. -/
def quoted (s : String) : String := "\"" ++ s ++ "\""

/-- What is reported. -/
def CompileError.message : CompileError → String
  | .parameterOutOfScope name =>
      "Parameter " ++ quoted name ++ " is not declared by any enclosing lambda"
  | .unsupported kind reason => "Unsupported " ++ kind.name ++ " node: " ++ reason
  | .missingTruthOperators ty =>
      "Type " ++ quoted ty.text ++ " does not declare true/false operators"

/-- Advice on how to avoid the error. -/
def CompileError.help : CompileError → String
  | .parameterOutOfScope name =>
      "Add " ++ quoted name ++ " to the parameter list of an enclosing lambda, " ++
        "or reuse the parameter object that lambda declares."
  | .unsupported kind _ =>
      "Check that the payload of the " ++ kind.name ++
        " node matches its kind and operand types."
  | .missingTruthOperators ty =>
      "Declare is_true/is_false operators on " ++ ty.text ++
        " with RecordType::set_truth_operators."

/-- The code of the error. -/
def CompileError.code : CompileError → String
  | .parameterOutOfScope _ => "CompileError::ParameterOutOfScope"
  | .unsupported .. => "CompileError::Unsupported"
  | .missingTruthOperators _ => "CompileError::MissingTruthOperators"

/-- What is reported. -/
def RuntimeError.message : RuntimeError → String
  | .argumentCount expected got =>
      "Invalid number of arguments, expected " ++ toString expected ++ ", got " ++ toString got
  | .argumentType index expected got =>
      "Invalid type for argument " ++ toString index ++ ", expected " ++ expected.text ++
        ", got " ++ got
  | .typeMismatch expected got => "Type mismatch, expected " ++ expected ++ ", got " ++ got
  | .overflow => "Arithmetic operation resulted in an overflow"
  | .divideByZero => "Divided by 0"
  | .nullReference => "Object reference is null"
  | .nullValue => "Optional value has no value"
  | .invalidCast source target => "Unable to cast " ++ source ++ " to " ++ target.text
  | .indexOutOfRange index length =>
      "Index " ++ toString index ++ " is out of range for length " ++ toString length
  | .negativeArraySize size => "Array size cannot be negative, got " ++ toString size
  | .arrayTooLarge size => "Unable to allocate an array of length " ++ toString size
  | .notCallable ty => "Value of type " ++ ty ++ " is not callable"
  | .recursionLimit limit => "Maximum call depth exceeded " ++ quoted (toString limit)
  | .missingScope => "Hoisted variable is not reachable from the current scope"
  | .native message => message

/-- Advice on how to avoid the error, where there is some. -/
def RuntimeError.help : RuntimeError → Option String
  | .argumentCount expected _ => some ("Pass exactly " ++ toString expected ++ " argument(s).")
  | .argumentType _ expected _ => some ("Pass a value of type " ++ expected.text ++ ".")
  | .overflow => some "Use a wider type or the unchecked operator to wrap around."
  | .divideByZero => some "Check the divisor before dividing."
  | .nullReference | .nullValue => some "Guard the operand with a Coalesce or a TypeIs check."
  | .recursionLimit _ => some "Raise CompilerOptions::max_call_depth or bound the recursion."
  | _ => none

/-- The code of the error. -/
def RuntimeError.code : RuntimeError → String
  | .argumentCount .. => "RuntimeError::ArgumentCount"
  | .argumentType .. => "RuntimeError::ArgumentType"
  | .typeMismatch .. => "RuntimeError::TypeMismatch"
  | .overflow => "RuntimeError::Overflow"
  | .divideByZero => "RuntimeError::DivideByZero"
  | .nullReference => "RuntimeError::NullReference"
  | .nullValue => "RuntimeError::NullValue"
  | .invalidCast .. => "RuntimeError::InvalidCast"
  | .indexOutOfRange .. => "RuntimeError::IndexOutOfRange"
  | .negativeArraySize _ => "RuntimeError::NegativeArraySize"
  | .arrayTooLarge _ => "RuntimeError::ArrayTooLarge"
  | .notCallable _ => "RuntimeError::NotCallable"
  | .recursionLimit _ => "RuntimeError::RecursionLimit"
  | .missingScope => "RuntimeError::MissingScope"
  | .native _ => "RuntimeError::Native"

namespace Error

/-- The code of the error. -/
def code : Error → String
  | .compile e => e.code
  | .runtime e => e.code

/-- What is reported. -/
def message : Error → String
  | .compile e => e.message
  | .runtime e => e.message

/-- Advice on how to avoid the error, where there is some. -/
def help : Error → Option String
  | .compile e => some e.help
  | .runtime e => e.help

end Error

end ExprTree
