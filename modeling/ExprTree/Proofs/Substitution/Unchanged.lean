import ExprTree.Proofs.Substitution.Places

set_option autoImplicit false

/-! # What a substitution changes

A tree and the result of a substitution are compared place by place. Where the tree reads a mapped
parameter, the result has a constant of the same type. At every other place both have a node of the
same kind and type with the same content, the nodes below it apart (`Payload.outline`): the same
methods, members, constructors, constants and flags, and as many nodes below it in the same roles.
A lambda keeps its parameters and its signature; its name is lost, unless nothing is substituted at
all (`substitute_changes_reads_and_names`).
-/

namespace ExprTree

variable {α : Type}

/-! ## Nodes without the nodes below them -/

/-- Stands for a node of which only the type matters. -/
def Node.outline (n : Node α) : Node α := .mk 0 .block n.ty (.block [])

/-- One call of an `add` method, without its arguments. -/
def ElementInit.outline : ElementInit α → ElementInit α
  | .mk add args => .mk add (args.map Node.outline)

mutual

/-- A binding without the nodes in it. -/
def MemberBinding.outline : MemberBinding α → MemberBinding α
  | .assign m x => .assign m x.outline
  | .bind m nested => .bind m (MemberBinding.outlineAll nested)
  | .list m inits => .list m (inits.map ElementInit.outline)

/-- Several bindings without the nodes in them. -/
def MemberBinding.outlineAll : List (MemberBinding α) → List (MemberBinding α)
  | [] => []
  | b :: rest => MemberBinding.outline b :: MemberBinding.outlineAll rest

end

/-- The parameters of a lambda and the type of its body; it has no number and no name. -/
def Lambda.outline (l : Lambda α) : Lambda α := .mk 0 none l.params l.body.outline

/-- What a node says itself: its content with nothing but the types of the nodes below it. -/
def Payload.outline : Payload α → Payload α
  | .constant v => .constant v
  | .parameter p => .parameter p
  | .unary x m lifted => .unary x.outline m lifted
  | .binary l r m lifted toNull conversion =>
      .binary l.outline r.outline m lifted toNull (conversion.map Lambda.outline)
  | .conditional t a b => .conditional t.outline a.outline b.outline
  | .memberAccess target m => .memberAccess (target.map Node.outline) m
  | .call target m args => .call (target.map Node.outline) m (args.map Node.outline)
  | .new c args => .new c (args.map Node.outline)
  | .newArray items => .newArray (items.map Node.outline)
  | .listInit x inits => .listInit x.outline (inits.map ElementInit.outline)
  | .memberInit x bindings => .memberInit x.outline (MemberBinding.outlineAll bindings)
  | .lambda l => .lambda l.outline
  | .invoke x args => .invoke x.outline (args.map Node.outline)
  | .typeIs x t => .typeIs x.outline t
  | .assign p x => .assign p x.outline
  | .block items => .block (items.map Node.outline)

/-- The lambdas that a node holds itself. -/
def Payload.lambdas : Payload α → List (Lambda α)
  | .lambda l => [l]
  | .binary _ _ _ _ _ conversion => conversion.toList
  | _ => []

/-! ## Changes -/

/-- The second lambda has the declaration of the first one, but a name only if nothing is
substituted. -/
structure Lambda.ChangedBy (s : Substitution α) (l l' : Lambda α) : Prop where
  params : l'.params = l.params
  signature : l'.signature = l.signature
  name : l'.name = if s.isEmpty then l.name else none

/-- What becomes of a node: a read of a mapped parameter becomes a constant, any other node is what
it was, up to the nodes below it and the names and numbers of lambdas. -/
inductive Node.ChangedBy (s : Substitution α) (n n' : Node α) : Prop
  | read {p : Parameter} {v : α} (reads : n.payload = .parameter p)
      (mapped : s.lookup p.id = some v) (kind : n'.kind = .constant) (ty : n'.ty = n.ty)
      (payload : n'.payload = .constant v)
  | kept (other : ∀ p, n.payload = .parameter p → s.lookup p.id = none) (kind : n'.kind = n.kind)
      (ty : n'.ty = n.ty) (outline : n'.payload.outline = n.payload.outline)
      (lambdas : List.Forall₂ (Lambda.ChangedBy s) n.payload.lambdas n'.payload.lambdas)

section Rebuild

variable (s : Substitution α)

theorem Node.outline_rebuild (n : Node α) (k : Nat) : (n.rebuild s k).1.outline = n.outline := by
  rw [Node.outline, n.ty_rebuild]
  rfl

theorem Node.outline_rebuildAll (ns : List (Node α)) (k : Nat) :
    (Node.rebuildAll s ns k).1.map Node.outline = ns.map Node.outline := by
  induction ns generalizing k with
  | nil => rfl
  | cons n ns ih => exact congrArg₂ List.cons (n.outline_rebuild s k) (ih _)

theorem ElementInit.outline_rebuildAll (inits : List (ElementInit α)) (k : Nat) :
    (ElementInit.rebuildAll s inits k).1.map ElementInit.outline
      = inits.map ElementInit.outline := by
  induction inits generalizing k with
  | nil => rfl
  | cons init inits ih =>
      obtain ⟨add, args⟩ := init
      have hargs := congrArg (ElementInit.mk add) (Node.outline_rebuildAll s args k)
      exact congrArg₂ List.cons hargs (ih _)

theorem MemberBinding.outline_rebuildAll : (bindings : List (MemberBinding α)) → (k : Nat) →
    outlineAll (rebuildAll s bindings k).1 = outlineAll bindings
  | [], _ => rfl
  | .assign m x :: rest, k => congrArg₂ List.cons
      (congrArg (MemberBinding.assign m) (x.outline_rebuild s k))
      (MemberBinding.outline_rebuildAll rest _)
  | .list m inits :: rest, k => congrArg₂ List.cons
      (congrArg (MemberBinding.list m) (ElementInit.outline_rebuildAll s inits k))
      (MemberBinding.outline_rebuildAll rest _)
  | .bind m nested :: rest, k => congrArg₂ List.cons
      (congrArg (MemberBinding.bind m) (MemberBinding.outline_rebuildAll nested k))
      (MemberBinding.outline_rebuildAll rest _)

theorem Lambda.outline_rebuild (l : Lambda α) (k : Nat) :
    (l.rebuild s k).1.outline = l.outline := by
  obtain ⟨id, name, params, body⟩ := l
  exact congrArg (Lambda.mk 0 none params) (body.outline_rebuild s k)

theorem Payload.outline_rebuild (p : Payload α) (k : Nat) :
    (p.rebuild s k).1.outline = p.outline := by
  cases p with
  | constant | parameter => rfl
  | unary x m lifted => exact congrArg (Payload.unary · m lifted) (x.outline_rebuild s k)
  | binary l r m lifted toNull conversion =>
      have hl := l.outline_rebuild s k
      have hr := r.outline_rebuild s (l.rebuild s k).2
      cases conversion with
      | none => exact congrArg₂ (Payload.binary · · m lifted toNull none) hl hr
      | some c =>
          have hc := congrArg some (c.outline_rebuild s (r.rebuild s (l.rebuild s k).2).2)
          exact (congr (congrArg₂ (fun l r => Payload.binary l r m lifted toNull) hl hr) hc :)
  | conditional t a b =>
      have ht := t.outline_rebuild s k
      have ha := a.outline_rebuild s (t.rebuild s k).2
      have hb := b.outline_rebuild s (a.rebuild s (t.rebuild s k).2).2
      exact (congr (congrArg₂ Payload.conditional ht ha) hb :)
  | memberAccess target m =>
      cases target with
      | none => rfl
      | some x => exact congrArg (fun x => Payload.memberAccess (some x) m) (x.outline_rebuild s k)
  | call target m args =>
      cases target with
      | none => exact congrArg (Payload.call none m) (Node.outline_rebuildAll s args k)
      | some x =>
          exact congrArg₂ (fun x => Payload.call (some x) m) (x.outline_rebuild s k)
            (Node.outline_rebuildAll s args _)
  | new c args => exact congrArg (Payload.new c) (Node.outline_rebuildAll s args k)
  | newArray items => exact congrArg Payload.newArray (Node.outline_rebuildAll s items k)
  | listInit x inits =>
      exact congrArg₂ Payload.listInit (x.outline_rebuild s k)
        (ElementInit.outline_rebuildAll s inits _)
  | memberInit x bindings =>
      exact congrArg₂ Payload.memberInit (x.outline_rebuild s k)
        (MemberBinding.outline_rebuildAll s bindings _)
  | lambda l => exact congrArg Payload.lambda (l.outline_rebuild s k)
  | invoke x args =>
      exact congrArg₂ Payload.invoke (x.outline_rebuild s k) (Node.outline_rebuildAll s args _)
  | typeIs x t => exact congrArg (Payload.typeIs · t) (x.outline_rebuild s k)
  | assign p x => exact congrArg (Payload.assign p) (x.outline_rebuild s k)
  | block items => exact congrArg Payload.block (Node.outline_rebuildAll s items k)

variable {s}

theorem Lambda.changedBy_rebuild (hs : s.isEmpty = false) (l : Lambda α) (k : Nat) :
    l.ChangedBy s (l.rebuild s k).1 := by
  obtain ⟨id, name, params, body⟩ := l
  refine ⟨rfl, ?_, ?_⟩
  · exact congrArg (Signature.mk (params.map (·.ty))) (body.ty_rebuild s k)
  · rw [hs]
    rfl

theorem Payload.lambdas_rebuild (hs : s.isEmpty = false) (p : Payload α) (k : Nat) :
    List.Forall₂ (Lambda.ChangedBy s) p.lambdas (p.rebuild s k).1.lambdas := by
  cases p with
  | binary l r m lifted toNull conversion =>
      cases conversion with
      | none => exact .nil
      | some c => exact .cons (c.changedBy_rebuild hs _) .nil
  | lambda l => exact .cons (l.changedBy_rebuild hs k) .nil
  | memberAccess target m => cases target <;> exact .nil
  | call target m args => cases target <;> exact .nil
  | _ => exact .nil

/-- A node that is neither a constant nor a read is rebuilt with its content. -/
theorem Node.rebuild_mk {id : Nat} {kind : Kind} {ty : Ty} {payload : Payload α}
    (hc : ∀ v, payload ≠ .constant v) (hp : ∀ p, payload ≠ .parameter p) (k : Nat) :
    ((Node.mk id kind ty payload).rebuild s k).1
      = .mk (payload.rebuild s k).2 kind ty (payload.rebuild s k).1 := by
  cases payload with
  | constant v => exact absurd rfl (hc v)
  | parameter p => exact absurd rfl (hp p)
  | _ => rfl

theorem Node.changedBy_rebuild (hs : s.isEmpty = false) (n : Node α) (k : Nat) :
    n.ChangedBy s (n.rebuild s k).1 := by
  obtain ⟨id, kind, ty, payload⟩ := n
  by_cases hc : ∃ v, payload = .constant v
  · obtain ⟨v, rfl⟩ := hc
    exact .kept nofun rfl rfl rfl .nil
  by_cases hp : ∃ p, payload = .parameter p
  · obtain ⟨p, rfl⟩ := hp
    simp only [Node.rebuild]
    cases hv : s.lookup p.id with
    | some v => exact .read rfl hv rfl rfl rfl
    | none =>
        refine .kept (fun q hq => ?_) rfl rfl rfl .nil
        obtain rfl : p = q := Payload.parameter.inj hq
        exact hv
  · rw [Node.rebuild_mk (fun v hv => hc ⟨v, hv⟩) (fun p hp' => hp ⟨p, hp'⟩)]
    exact .kept (fun p hp' => absurd ⟨p, hp'⟩ hp) rfl rfl (payload.outline_rebuild s k)
      (payload.lambdas_rebuild hs k)

end Rebuild

/-- With nothing to substitute a node is what it was. -/
theorem Node.changedBy_nil (n : Node α) : n.ChangedBy [] n := by
  refine .kept (fun _ _ => rfl) rfl rfl rfl ?_
  exact List.forall₂_same.mpr fun _ _ => ⟨rfl, rfl, rfl⟩

/-- **A substitution changes the reads of mapped parameters and the names of lambdas.** The result
has the places of the tree. Where the tree reads a mapped parameter, it has a constant of the mapped
value and of the same type. Everywhere else the kind, the type and the content are what they were,
and every lambda has the same parameters and the same signature; but if anything is substituted at
all, no lambda of the result has a name. -/
theorem substitute_changes_reads_and_names (t : Node α) (s : Substitution α) (k : Nat)
    (path : List Nat) :
    Option.Rel (Node.ChangedBy s) (t.at? path) ((t.substitute s k).1.at? path) := by
  cases s with
  | nil =>
      show Option.Rel (Node.ChangedBy []) (t.at? path) (t.at? path)
      cases t.at? path with
      | none => exact .none
      | some n => exact .some n.changedBy_nil
  | cons a s => exact t.at?_rebuild (a :: s) (Node.changedBy_rebuild rfl) path k

/-- A named lambda that reads a mapped parameter: the read is replaced as it should be, but the name
is gone, which a substitution of nothing keeps. -/
theorem substitute_drops_name :
    let y : Parameter := ⟨1, "y", .bool⟩
    let named : Tree := .ofLambda 5 (.mk 6 (some "f") [⟨2, "x", .bool⟩] (.parameter 7 y))
    named.lambda?.map Lambda.name = some (some "f") ∧
      (named.substitute [(1, .bool true)] 8).1.lambda?.map Lambda.name = some none ∧
      (named.substitute [] 8).1.lambda?.map Lambda.name = some (some "f") :=
  ⟨rfl, rfl, rfl⟩

end ExprTree
