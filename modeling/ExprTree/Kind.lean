set_option autoImplicit false

/-! # Kinds of nodes

The tag of a node. It is kept apart from what the node holds, so a tree can also describe shapes
that make no sense, such as two operands under a kind that takes one; the compiler refuses them.
-/

namespace ExprTree

/-- The tag of a node. -/
inductive Kind
  | add | addChecked | and | andAlso | arrayIndex | arrayLength | assign | block | call
  | coalesce | conditional | constant | convert | convertChecked | divide | equal | exclusiveOr
  | greaterThan | greaterThanOrEqual | invoke | lambda | leftShift | lessThan | lessThanOrEqual
  | listInit | memberAccess | memberInit | modulo | multiply | multiplyChecked | negate
  | negateChecked | new | newArrayBounds | newArrayInit | not | notEqual | or | orElse
  | parameter | power | quote | rightShift | subtract | subtractChecked | typeAs | typeIs
  | unaryPlus
deriving DecidableEq

namespace Kind

/-- Every kind, in alphabetical order. -/
def all : List Kind :=
  [.add, .addChecked, .and, .andAlso, .arrayIndex, .arrayLength, .assign, .block, .call,
   .coalesce, .conditional, .constant, .convert, .convertChecked, .divide, .equal,
   .exclusiveOr, .greaterThan, .greaterThanOrEqual, .invoke, .lambda, .leftShift, .lessThan,
   .lessThanOrEqual, .listInit, .memberAccess, .memberInit, .modulo, .multiply,
   .multiplyChecked, .negate, .negateChecked, .new, .newArrayBounds, .newArrayInit, .not,
   .notEqual, .or, .orElse, .parameter, .power, .quote, .rightShift, .subtract,
   .subtractChecked, .typeAs, .typeIs, .unaryPlus]

/-- The name of a kind. -/
def name : Kind → String
  | .add => "Add" | .addChecked => "AddChecked" | .and => "And" | .andAlso => "AndAlso"
  | .arrayIndex => "ArrayIndex" | .arrayLength => "ArrayLength" | .assign => "Assign"
  | .block => "Block" | .call => "Call" | .coalesce => "Coalesce"
  | .conditional => "Conditional" | .constant => "Constant" | .convert => "Convert"
  | .convertChecked => "ConvertChecked" | .divide => "Divide" | .equal => "Equal"
  | .exclusiveOr => "ExclusiveOr" | .greaterThan => "GreaterThan"
  | .greaterThanOrEqual => "GreaterThanOrEqual" | .invoke => "Invoke" | .lambda => "Lambda"
  | .leftShift => "LeftShift" | .lessThan => "LessThan" | .lessThanOrEqual => "LessThanOrEqual"
  | .listInit => "ListInit" | .memberAccess => "MemberAccess" | .memberInit => "MemberInit"
  | .modulo => "Modulo" | .multiply => "Multiply" | .multiplyChecked => "MultiplyChecked"
  | .negate => "Negate" | .negateChecked => "NegateChecked" | .new => "New"
  | .newArrayBounds => "NewArrayBounds" | .newArrayInit => "NewArrayInit" | .not => "Not"
  | .notEqual => "NotEqual" | .or => "Or" | .orElse => "OrElse" | .parameter => "Parameter"
  | .power => "Power" | .quote => "Quote" | .rightShift => "RightShift"
  | .subtract => "Subtract" | .subtractChecked => "SubtractChecked" | .typeAs => "TypeAs"
  | .typeIs => "TypeIs" | .unaryPlus => "UnaryPlus"

/-- The kind of that name. -/
def ofName? (name : String) : Option Kind := all.find? (·.name == name)

/-- Kinds with two operands. -/
def isBinary : Kind → Bool
  | .add | .addChecked | .and | .andAlso | .arrayIndex | .coalesce | .divide | .equal
  | .exclusiveOr | .greaterThan | .greaterThanOrEqual | .leftShift | .lessThan
  | .lessThanOrEqual | .modulo | .multiply | .multiplyChecked | .notEqual | .or | .orElse
  | .power | .rightShift | .subtract | .subtractChecked => true
  | _ => false

/-- Kinds with one operand. -/
def isUnary : Kind → Bool
  | .arrayLength | .convert | .convertChecked | .negate | .negateChecked | .not | .quote
  | .typeAs | .unaryPlus => true
  | _ => false

/-- Comparisons, whose form over optional operands may still give a plain truth value. -/
def isRelational : Kind → Bool
  | .equal | .notEqual | .lessThan | .lessThanOrEqual | .greaterThan | .greaterThanOrEqual => true
  | _ => false

/-- Kinds that report an overflow. -/
def isChecked : Kind → Bool
  | .addChecked | .subtractChecked | .multiplyChecked | .negateChecked | .convertChecked => true
  | _ => false

end Kind

end ExprTree
