import ExprTree.Node

set_option autoImplicit false

/-! # Equality of trees

Two trees are the same if they agree node by node in kind, type and content, whatever the
identities of their nodes. Parameters and lambdas are compared by their number, methods,
constructors and members by what they stand for, and constants by the given comparison. Where the
comparison of two constants never ends and nothing before them differs, nor does that of the trees.
-/

namespace ExprTree

variable {α : Type}

/-- Both absent, or both present and related. -/
def sameOption {β : Type} (same : β → β → Bool) : Option β → Option β → Bool
  | none, none => true
  | some a, some b => same a b
  | _, _ => false

/-- Conjunction, from left to right, of comparisons that need not end. -/
def andThen (a : Option Bool) (b : Unit → Option Bool) : Option Bool :=
  match a with
  | some true => b ()
  | a => a

mutual

/-- Equality of trees, given an equality of constants. -/
def Node.same (eq : α → α → Option Bool) : Node α → Node α → Option Bool
  | .mk _ kind ty payload, .mk _ kind' ty' payload' =>
      if kind = kind' ∧ ty = ty' then Payload.same eq payload payload' else some false
termination_by structural a => a

/-- Equality of what two nodes hold. -/
def Payload.same (eq : α → α → Option Bool) : Payload α → Payload α → Option Bool
  | .constant v, .constant v' => eq v v'
  | .parameter p, .parameter p' => some (p.id == p'.id)
  | .unary x m lifted, .unary x' m' lifted' =>
      andThen (Node.same eq x x') fun _ => some (sameOption Method.same m m' && lifted == lifted')
  | .binary l r m lifted toNull c, .binary l' r' m' lifted' toNull' c' =>
      andThen (Node.same eq l l') fun _ => andThen (Node.same eq r r') fun _ =>
        some (sameOption Method.same m m' && lifted == lifted' && toNull == toNull' &&
          sameOption (·.id == ·.id) c c')
  | .conditional t x y, .conditional t' x' y' =>
      andThen (Node.same eq t t') fun _ => andThen (Node.same eq x x') fun _ => Node.same eq y y'
  | .memberAccess none m, .memberAccess none m' => some (m.same m')
  | .memberAccess (some x) m, .memberAccess (some x') m' =>
      andThen (Node.same eq x x') fun _ => some (m.same m')
  | .call none m args, .call none m' args' =>
      andThen (some (m.same m')) fun _ => Node.sameAll eq args args'
  | .call (some x) m args, .call (some x') m' args' =>
      andThen (Node.same eq x x') fun _ => andThen (some (m.same m')) fun _ =>
        Node.sameAll eq args args'
  | .new c args, .new c' args' =>
      andThen (some (sameOption Constructor.same c c')) fun _ => Node.sameAll eq args args'
  | .newArray items, .newArray items' => Node.sameAll eq items items'
  | .listInit x inits, .listInit x' inits' =>
      andThen (Node.same eq x x') fun _ => ElementInit.sameAll eq inits inits'
  | .memberInit x bindings, .memberInit x' bindings' =>
      andThen (Node.same eq x x') fun _ => MemberBinding.sameAll eq bindings bindings'
  | .lambda l, .lambda l' => some (l.id == l'.id)
  | .invoke x args, .invoke x' args' =>
      andThen (Node.same eq x x') fun _ => Node.sameAll eq args args'
  | .typeIs x t, .typeIs x' t' => andThen (Node.same eq x x') fun _ => some (t == t')
  | .assign p x, .assign p' x' => andThen (some (p.id == p'.id)) fun _ => Node.same eq x x'
  | .block items, .block items' => Node.sameAll eq items items'
  | _, _ => some false
termination_by structural a => a

/-- Equality of two lists of nodes; lists of different lengths differ at once. -/
def Node.sameAll (eq : α → α → Option Bool) : List (Node α) → List (Node α) → Option Bool
  | [], [] => some true
  | n :: ns, n' :: ns' =>
      andThen (some (ns.length == ns'.length)) fun _ => andThen (Node.same eq n n') fun _ =>
        Node.sameAll eq ns ns'
  | _, _ => some false
termination_by structural a => a

/-- Equality of two lists of initialisers. -/
def ElementInit.sameAll (eq : α → α → Option Bool) :
    List (ElementInit α) → List (ElementInit α) → Option Bool
  | [], [] => some true
  | .mk add args :: rest, .mk add' args' :: rest' =>
      andThen (some (rest.length == rest'.length && add.same add')) fun _ =>
        andThen (Node.sameAll eq args args') fun _ => ElementInit.sameAll eq rest rest'
  | _, _ => some false
termination_by structural a => a

/-- Equality of two lists of bindings. -/
def MemberBinding.sameAll (eq : α → α → Option Bool) :
    List (MemberBinding α) → List (MemberBinding α) → Option Bool
  | [], [] => some true
  | .assign m x :: rest, .assign m' x' :: rest' =>
      andThen (some (rest.length == rest'.length && m.same m')) fun _ =>
        andThen (Node.same eq x x') fun _ => MemberBinding.sameAll eq rest rest'
  | .bind m nested :: rest, .bind m' nested' :: rest' =>
      andThen (some (rest.length == rest'.length && m.same m')) fun _ =>
        andThen (MemberBinding.sameAll eq nested nested') fun _ =>
          MemberBinding.sameAll eq rest rest'
  | .list m inits :: rest, .list m' inits' :: rest' =>
      andThen (some (rest.length == rest'.length && m.same m')) fun _ =>
        andThen (ElementInit.sameAll eq inits inits') fun _ => MemberBinding.sameAll eq rest rest'
  | _, _ => some false
termination_by structural a => a

end

end ExprTree
