import ExprTree.Capture
import ExprTree.Node.Free

set_option autoImplicit false

/-! # The shape of a walk

The borders of lambdas and quotes in a walk are properly nested. `Balanced` says so of a list of
events, and its five rules are the induction for everything that is read off a walk: whoever
follows the borders is, after a balanced list, where it was before.
-/

namespace ExprTree

variable {α : Type}

/-- Every border that is crossed into is crossed back, innermost first. -/
inductive Balanced : List (Event α) → Prop
  | nil : Balanced []
  | node (n : Node α) {es : List (Event α)} : Balanced es → Balanced (.node n :: es)
  | mention (p : Parameter) {es : List (Event α)} : Balanced es → Balanced (.mention p :: es)
  | lambda (l : Lambda α) {es rest : List (Event α)} :
      Balanced es → Balanced rest → Balanced (.enter l :: (es ++ .leave l :: rest))
  | quote {es rest : List (Event α)} :
      Balanced es → Balanced rest → Balanced (.enterQuote :: (es ++ .leaveQuote :: rest))

theorem Balanced.append {es es' : List (Event α)} (h : Balanced es) (h' : Balanced es') :
    Balanced (es ++ es') := by
  induction h with
  | nil => exact h'
  | node n _ ih => exact .node n ih
  | mention p _ ih => exact .mention p ih
  | @lambda l es rest hes _ _ ih =>
      have h := Balanced.lambda l hes ih
      simpa using h
  | @quote es rest hes _ _ ih =>
      have h := Balanced.quote hes ih
      simpa using h

section Lambdas

variable {id : Nat} {name : Option String} {params : List Parameter} {body : Node α}

/-- The walk of a lambda is balanced if the walk of its body is. -/
theorem Balanced.ofBody (h : Balanced body.walk) : Balanced (Lambda.mk id name params body).walk :=
  .lambda _ h .nil

theorem Lambda.mem_walk {e : Event α} :
    e ∈ (Lambda.mk id name params body).walk ↔ e = .enter (.mk id name params body) ∨
      e ∈ body.walk ∨ e = .leave (.mk id name params body) := by
  simp [Lambda.walk]

/-- The lambdas in a lambda are itself and those in its body. -/
theorem Lambda.enter_mem_walk {l : Lambda α} :
    .enter l ∈ (Lambda.mk id name params body).walk ↔
      l = .mk id name params body ∨ .enter l ∈ body.walk := by
  simp [Lambda.mem_walk]

end Lambdas

/-- Several trees are walked over one by one. -/
theorem Node.mem_walkAll {ns : List (Node α)} {e : Event α} :
    e ∈ Node.walkAll ns ↔ ∃ x ∈ ns, e ∈ x.walk := by
  induction ns with
  | nil => simp [Node.walkAll]
  | cons n ns ih => simp [Node.walkAll, ih]

mutual

theorem Node.walk_balanced : (n : Node α) → Balanced n.walk
  | .mk _ kind _ payload => .node _ (Payload.walk_balanced kind payload)

theorem Payload.walk_balanced (kind : Kind) : (p : Payload α) → Balanced (p.walk kind)
  | .constant _ => .nil
  | .parameter p => .mention p .nil
  | .unary x _ _ => by
      rw [Payload.walk]
      split
      · exact .quote x.walk_balanced .nil
      · exact x.walk_balanced
  | .binary l r _ _ _ none => l.walk_balanced.append r.walk_balanced
  | .binary l r _ _ _ (some c) => l.walk_balanced.append (r.walk_balanced.append c.walk_balanced)
  | .conditional t a b => t.walk_balanced.append (a.walk_balanced.append b.walk_balanced)
  | .memberAccess none _ => .nil
  | .memberAccess (some x) _ => x.walk_balanced
  | .call none _ args => Node.walkAll_balanced args
  | .call (some x) _ args => x.walk_balanced.append (Node.walkAll_balanced args)
  | .new _ args => Node.walkAll_balanced args
  | .newArray items => Node.walkAll_balanced items
  | .listInit x inits => x.walk_balanced.append (ElementInit.walkAll_balanced inits)
  | .memberInit x bindings => x.walk_balanced.append (MemberBinding.walkAll_balanced bindings)
  | .lambda l => l.walk_balanced
  | .invoke x args => x.walk_balanced.append (Node.walkAll_balanced args)
  | .typeIs x _ => x.walk_balanced
  | .assign p x => .mention p x.walk_balanced
  | .block items => Node.walkAll_balanced items

theorem Lambda.walk_balanced : (l : Lambda α) → Balanced l.walk
  | .mk _ _ _ body => .ofBody body.walk_balanced

theorem Node.walkAll_balanced : (ns : List (Node α)) → Balanced (Node.walkAll ns)
  | [] => .nil
  | n :: ns => n.walk_balanced.append (Node.walkAll_balanced ns)

theorem ElementInit.walkAll_balanced :
    (inits : List (ElementInit α)) → Balanced (ElementInit.walkAll inits)
  | [] => .nil
  | .mk _ args :: rest => (Node.walkAll_balanced args).append (ElementInit.walkAll_balanced rest)

theorem MemberBinding.walkAll_balanced :
    (bs : List (MemberBinding α)) → Balanced (MemberBinding.walkAll bs)
  | [] => .nil
  | .assign _ x :: rest => x.walk_balanced.append (MemberBinding.walkAll_balanced rest)
  | .bind _ nested :: rest =>
      (MemberBinding.walkAll_balanced nested).append (MemberBinding.walkAll_balanced rest)
  | .list _ inits :: rest =>
      (ElementInit.walkAll_balanced inits).append (MemberBinding.walkAll_balanced rest)

end

/-! ## Declarations along a walk

The search for free parameters counts declarations. On the way out of a lambda it takes back what
it added on the way in, however often the lambda or those around it declare a parameter. -/

namespace FreeScan

theorem isDeclared_declare (s : FreeScan) (params : List Parameter) (p : Parameter) :
    (s.declare params).isDeclared p = (params.any (·.id == p.id) || s.isDeclared p) := by
  have hparams : (params.map (·.id)).contains p.id = params.any (·.id == p.id) := by
    induction params with
    | nil => rfl
    | cons q params ih => rw [List.map_cons, List.contains_cons, List.any_cons, ih, Bool.beq_comm]
  simp only [isDeclared, declare, List.contains_append, hparams]

theorem retract_declare (s : FreeScan) (params : List Parameter) :
    (s.declare params).retract params = s := by
  have herase : ∀ d : List Nat,
      params.foldl (fun d p => d.erase p.id) (params.map (·.id) ++ d) = d := by
    intro d
    induction params with
    | nil => rfl
    | cons p params ih =>
        rw [List.foldl_cons, List.map_cons, List.cons_append, List.erase_cons_head]
        exact ih
  simp only [declare, retract, herase]

/-- Where nothing is declared there is nothing to take back. -/
theorem declared_retract_of_nil {s : FreeScan} (h : s.declared = []) (params : List Parameter) :
    (s.retract params).declared = [] := by
  rw [retract, h]
  induction params with
  | nil => rfl
  | cons p params ih => exact ih

/-- A walk over a whole part leaves the declarations of the search as they were. -/
theorem declared_foldl {es : List (Event α)} (h : Balanced es) (s : FreeScan) :
    (es.foldl step s).declared = s.declared := by
  induction h generalizing s with
  | nil => rfl
  | node n _ ih => exact ih s
  | mention p _ ih =>
      rw [List.foldl_cons, ih]
      simp only [step]
      split <;> rfl
  | @lambda l es rest _ _ ihe ihr =>
      rw [List.foldl_cons, List.foldl_append, List.foldl_cons, ihr]
      have hbody : (es.foldl step (s.declare l.params)).declared = (s.declare l.params).declared :=
        ihe _
      calc ((es.foldl step (s.declare l.params)).retract l.params).declared
          = ((s.declare l.params).retract l.params).declared := by
            simp only [retract, hbody]
        _ = s.declared := by rw [retract_declare]
  | @quote es rest _ _ ihe ihr =>
      rw [List.foldl_cons, List.foldl_append, List.foldl_cons, ihr]
      exact ihe s

end FreeScan

end ExprTree
