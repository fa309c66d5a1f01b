import ExprTree.Proofs.Substitution

set_option autoImplicit false

/-! # What a substitution leaves

A substitution replaces reads and nothing else. So a parameter is free in the result where it is
assigned, and where it is read and has no value to be replaced by (`free_uses_substitute`).

The result also has the shape of the tree that it was made from. Places in a tree are addressed by
the way down to them, a list of positions among the nodes below a node; the same addresses are used
before and after, and what stands there has the same static type.
-/

namespace ExprTree

variable {α : Type}

/-! ## Places -/

/-- The arguments of one call of an `add` method. -/
def ElementInit.args : ElementInit α → List (Node α)
  | .mk _ args => args

mutual

/-- The nodes right below a binding, those of nested bindings included. -/
def MemberBinding.nodes : MemberBinding α → List (Node α)
  | .assign _ x => [x]
  | .bind _ nested => MemberBinding.nodesAll nested
  | .list _ inits => inits.flatMap ElementInit.args

/-- The nodes right below several bindings in order. -/
def MemberBinding.nodesAll : List (MemberBinding α) → List (Node α)
  | [] => []
  | b :: rest => MemberBinding.nodes b ++ MemberBinding.nodesAll rest

end

/-- The nodes that a node holds, in the order of a walk. A lambda is no node, but its body is. -/
def Payload.children : Payload α → List (Node α)
  | .constant _ | .parameter _ => []
  | .unary x _ _ | .typeIs x _ | .assign _ x => [x]
  | .binary l r _ _ _ conversion => l :: r :: (conversion.map Lambda.body).toList
  | .conditional t a b => [t, a, b]
  | .memberAccess target _ => target.toList
  | .call target _ args => target.toList ++ args
  | .new _ args | .newArray args | .block args => args
  | .listInit x inits => x :: inits.flatMap ElementInit.args
  | .memberInit x bindings => x :: MemberBinding.nodesAll bindings
  | .lambda l => [l.body]
  | .invoke x args => x :: args

/-- The node at the end of a way down. -/
def Node.at? : List Nat → Node α → Option (Node α)
  | [], n => some n
  | i :: path, n => n.payload.children[i]?.bind (Node.at? path)

/-! ## Rebuilt places -/

section Rebuild

variable (s : Substitution α)

/-- The second node is made from the first one. -/
def Node.Rebuilds (n n' : Node α) : Prop := ∃ k, (n.rebuild s k).1 = n'

theorem Node.rebuilds_all (ns : List (Node α)) (k : Nat) :
    List.Forall₂ (Node.Rebuilds s) ns (Node.rebuildAll s ns k).1 := by
  induction ns generalizing k with
  | nil => exact .nil
  | cons n ns ih => exact .cons ⟨k, rfl⟩ (ih _)

theorem ElementInit.rebuilds_all (inits : List (ElementInit α)) (k : Nat) :
    List.Forall₂ (Node.Rebuilds s) (inits.flatMap ElementInit.args)
      ((ElementInit.rebuildAll s inits k).1.flatMap ElementInit.args) := by
  induction inits generalizing k with
  | nil => exact .nil
  | cons init inits ih =>
      obtain ⟨add, args⟩ := init
      exact List.rel_append (Node.rebuilds_all s args k) (ih _)

theorem MemberBinding.rebuilds_all : (bindings : List (MemberBinding α)) → (k : Nat) →
    List.Forall₂ (Node.Rebuilds s) (nodesAll bindings) (nodesAll (rebuildAll s bindings k).1)
  | [], _ => .nil
  | .assign _ _ :: rest, k => .cons ⟨k, rfl⟩ (MemberBinding.rebuilds_all rest _)
  | .list _ inits :: rest, k =>
      List.rel_append (ElementInit.rebuilds_all s inits k) (MemberBinding.rebuilds_all rest _)
  | .bind _ nested :: rest, k =>
      List.rel_append (MemberBinding.rebuilds_all nested k) (MemberBinding.rebuilds_all rest _)

/-- A lambda is rebuilt with its body. -/
theorem Lambda.rebuilds_body (l : Lambda α) (k : Nat) :
    l.body.Rebuilds s (l.rebuild s k).1.body := by
  obtain ⟨id, name, params, body⟩ := l
  exact ⟨k, rfl⟩

theorem Payload.rebuilds_children (p : Payload α) (k : Nat) :
    List.Forall₂ (Node.Rebuilds s) p.children (p.rebuild s k).1.children := by
  cases p with
  | constant | parameter => exact .nil
  | unary | typeIs | assign => exact .cons ⟨k, rfl⟩ .nil
  | binary l r m lifted toNull conversion =>
      cases conversion with
      | none => exact .cons ⟨k, rfl⟩ (.cons ⟨_, rfl⟩ .nil)
      | some c => exact .cons ⟨k, rfl⟩ (.cons ⟨_, rfl⟩ (.cons (c.rebuilds_body s _) .nil))
  | conditional => exact .cons ⟨k, rfl⟩ (.cons ⟨_, rfl⟩ (.cons ⟨_, rfl⟩ .nil))
  | memberAccess target m =>
      cases target with
      | none => exact .nil
      | some x => exact .cons ⟨k, rfl⟩ .nil
  | call target m args =>
      cases target with
      | none => exact Node.rebuilds_all s args k
      | some x => exact .cons ⟨k, rfl⟩ (Node.rebuilds_all s args _)
  | new _ args | newArray args | block args => exact Node.rebuilds_all s args k
  | listInit x inits => exact .cons ⟨k, rfl⟩ (ElementInit.rebuilds_all s inits _)
  | memberInit x bindings => exact .cons ⟨k, rfl⟩ (MemberBinding.rebuilds_all s bindings _)
  | lambda l => exact .cons (l.rebuilds_body s k) .nil
  | invoke x args => exact .cons ⟨k, rfl⟩ (Node.rebuilds_all s args _)

/-- The nodes below a rebuilt node were rebuilt from those below the node. -/
theorem Node.rebuilds_children (n : Node α) (k : Nat) :
    List.Forall₂ (Node.Rebuilds s) n.payload.children (n.rebuild s k).1.payload.children := by
  obtain ⟨id, kind, ty, payload⟩ := n
  have hpayload := payload.rebuilds_children s k
  cases payload with
  | constant => exact .nil
  | parameter p =>
      simp only [Node.rebuild]
      cases s.lookup p.id <;> exact .nil
  | binary _ _ _ _ _ conversion => cases conversion <;> exact hpayload
  | memberAccess target => cases target <;> exact hpayload
  | call target => cases target <;> exact hpayload
  | _ => exact hpayload

/-- Rebuilding keeps the places of a tree; what holds of every node and what it is rebuilt to holds
at every place. The induction is on the way down. -/
theorem Node.at?_rebuild {R : Node α → Node α → Prop} (hR : ∀ n k, R n (n.rebuild s k).1)
    (path : List Nat) (n : Node α) (k : Nat) :
    Option.Rel R (n.at? path) ((n.rebuild s k).1.at? path) := by
  induction path generalizing n k with
  | nil => exact .some (hR n k)
  | cons i path ih =>
      obtain ⟨hlen, hget⟩ := List.forall₂_iff_get.mp (n.rebuilds_children s k)
      rw [Node.at?, Node.at?]
      by_cases hi : i < n.payload.children.length
      · obtain ⟨m, hm⟩ := hget i hi (hlen ▸ hi)
        rw [List.getElem?_eq_getElem hi, List.getElem?_eq_getElem (hlen ▸ hi)]
        simp only [List.get_eq_getElem] at hm
        rw [← hm]
        exact ih _ m
      · have hi' : ¬i < (n.rebuild s k).1.payload.children.length := hlen ▸ hi
        rw [List.getElem?_eq_none (Nat.not_lt.mp hi), List.getElem?_eq_none (Nat.not_lt.mp hi')]
        exact .none

theorem Node.ty_at?_rebuild (path : List Nat) (n : Node α) (k : Nat) :
    ((n.rebuild s k).1.at? path).map Node.ty = (n.at? path).map Node.ty := by
  have hty := n.at?_rebuild s (R := fun n n' => n'.ty = n.ty) (fun n k => n.ty_rebuild s k) path k
  revert hty
  generalize n.at? path = x
  generalize (n.rebuild s k).1.at? path = x'
  rintro (h | _)
  · exact congrArg some h
  · rfl

end Rebuild

theorem Node.ty_at?_substitute (s : Substitution α) (path : List Nat) (n : Node α) (k : Nat) :
    ((n.substitute s k).1.at? path).map Node.ty = (n.at? path).map Node.ty := by
  cases s with
  | nil => rfl
  | cons a s => exact n.ty_at?_rebuild (a :: s) path k

/-! ## Free uses -/

/-- The uses that are left are those of the tree, less the reads of mapped parameters. -/
theorem Node.use_mem_leaves_substitute {n : Node α} {s : Substitution α} {k : Nat} {u : Use} :
    .use u ∈ (n.substitute s k).1.leaves ↔
      .use u ∈ n.leaves ∧ (u.isTarget = true ∨ s.lookup u.parameter.id = none) := by
  rw [Node.leaves_substitute, List.mem_map]
  constructor
  · rintro ⟨x, hx, hxu⟩
    obtain ⟨rfl, hkept⟩ := Leaf.replace_eq_use.mp hxu
    exact ⟨hx, hkept⟩
  · rintro ⟨hu, hkept⟩
    exact ⟨_, hu, Leaf.replace_eq_use.mpr ⟨rfl, hkept⟩⟩

/-- **What a substitution leaves free.** A parameter is free in the result exactly if the tree
assigns it where it is free, or reads it where it is free and the substitution has no value for it.
The result has the same places as the tree, and at every place a node of the same static type. -/
theorem free_uses_substitute (t : Node α) (s : Substitution α) (k : Nat) :
    (∀ p, (∃ q ∈ (t.substitute s k).1.freeParameters, q.id = p) ↔
      (∃ u, .use u ∈ t.leaves ∧ u.isTarget = true ∧ u.isBound = false ∧ u.parameter.id = p) ∨
      (s.lookup p = none ∧
        ∃ u, .use u ∈ t.leaves ∧ u.isTarget = false ∧ u.isBound = false ∧ u.parameter.id = p)) ∧
    ∀ path, ((t.substitute s k).1.at? path).map Node.ty = (t.at? path).map Node.ty := by
  refine ⟨fun p => ?_, fun path => t.ty_at?_substitute s path k⟩
  rw [Node.mem_freeParameters]
  constructor
  · rintro ⟨q, hq, rfl⟩
    obtain ⟨u, hu, hb, rfl⟩ := mem_freeOf.mp hq
    obtain ⟨hu, hkept⟩ := Node.use_mem_leaves_substitute.mp hu
    cases ht : u.isTarget with
    | true => exact .inl ⟨u, hu, ht, hb, rfl⟩
    | false =>
        have hnone := hkept.resolve_left (Bool.eq_false_iff.mp ht)
        exact .inr ⟨hnone, u, hu, ht, hb, rfl⟩
  · rintro (⟨u, hu, ht, hb, rfl⟩ | ⟨hnone, u, hu, -, hb, rfl⟩)
    · have hleft : .use u ∈ (t.substitute s k).1.leaves :=
        Node.use_mem_leaves_substitute.mpr ⟨hu, .inl ht⟩
      exact ⟨_, mem_freeOf.mpr ⟨u, hleft, hb, rfl⟩, rfl⟩
    · have hleft : .use u ∈ (t.substitute s k).1.leaves :=
        Node.use_mem_leaves_substitute.mpr ⟨hu, .inr hnone⟩
      exact ⟨_, mem_freeOf.mpr ⟨u, hleft, hb, rfl⟩, rfl⟩

end ExprTree
