import Mathlib.Data.List.Forall2
import ExprTree.Proofs.Occurrences

set_option autoImplicit false

/-! # Trees up to identities

Two trees are similar if they differ in nothing but their constants and in the identities of their
nodes and lambdas, where these are related. Rebuilding one tree with two substitutions for the same
parameters gives similar trees: both take the same number of new identities, in the same order
(`Node.rebuild_inStep`), and values are put into the same places (`Node.constants_substitute`).
-/

namespace ExprTree

variable {α : Type}

/-! ## Similar trees -/

mutual

/-- The same tree, up to constants and related identities. -/
inductive Node.Similar (I : Nat → Nat → Prop) : Node α → Node α → Prop
  | mk {i j : Nat} {kind : Kind} {ty : Ty} {p q : Payload α} (id : I i j)
      (payload : Payload.Similar I p q) : Node.Similar I (.mk i kind ty p) (.mk j kind ty q)

/-- The same content of a node. -/
inductive Payload.Similar (I : Nat → Nat → Prop) : Payload α → Payload α → Prop
  | constant (v w : α) : Payload.Similar I (.constant v) (.constant w)
  | parameter (p : Parameter) : Payload.Similar I (.parameter p) (.parameter p)
  | unary {x y : Node α} {m : Option Method} {lifted : Bool} (operand : Node.Similar I x y) :
      Payload.Similar I (.unary x m lifted) (.unary y m lifted)
  | binary {l r l' r' : Node α} {m : Option Method} {lifted toNull : Bool}
      (left : Node.Similar I l l') (right : Node.Similar I r r') :
      Payload.Similar I (.binary l r m lifted toNull none) (.binary l' r' m lifted toNull none)
  | binaryWith {l r l' r' : Node α} {m : Option Method} {lifted toNull : Bool} {c d : Lambda α}
      (left : Node.Similar I l l') (right : Node.Similar I r r')
      (conversion : Lambda.Similar I c d) :
      Payload.Similar I (.binary l r m lifted toNull (some c))
        (.binary l' r' m lifted toNull (some d))
  | conditional {t a b t' a' b' : Node α} (test : Node.Similar I t t')
      (ifTrue : Node.Similar I a a') (ifFalse : Node.Similar I b b') :
      Payload.Similar I (.conditional t a b) (.conditional t' a' b')
  | staticMember {m : Member} : Payload.Similar I (.memberAccess none m) (.memberAccess none m)
  | member {x y : Node α} {m : Member} (target : Node.Similar I x y) :
      Payload.Similar I (.memberAccess (some x) m) (.memberAccess (some y) m)
  | callStatic {m : Method} {as bs : List (Node α)} (args : Node.SimilarAll I as bs) :
      Payload.Similar I (.call none m as) (.call none m bs)
  | call {x y : Node α} {m : Method} {as bs : List (Node α)} (target : Node.Similar I x y)
      (args : Node.SimilarAll I as bs) :
      Payload.Similar I (.call (some x) m as) (.call (some y) m bs)
  | new {c : Option Constructor} {as bs : List (Node α)} (args : Node.SimilarAll I as bs) :
      Payload.Similar I (.new c as) (.new c bs)
  | newArray {as bs : List (Node α)} (items : Node.SimilarAll I as bs) :
      Payload.Similar I (.newArray as) (.newArray bs)
  | listInit {x y : Node α} {as bs : List (ElementInit α)} (new : Node.Similar I x y)
      (inits : ElementInit.SimilarAll I as bs) :
      Payload.Similar I (.listInit x as) (.listInit y bs)
  | memberInit {x y : Node α} {as bs : List (MemberBinding α)} (new : Node.Similar I x y)
      (bindings : MemberBinding.SimilarAll I as bs) :
      Payload.Similar I (.memberInit x as) (.memberInit y bs)
  | lambda {l l' : Lambda α} (h : Lambda.Similar I l l') :
      Payload.Similar I (.lambda l) (.lambda l')
  | invoke {x y : Node α} {as bs : List (Node α)} (target : Node.Similar I x y)
      (args : Node.SimilarAll I as bs) : Payload.Similar I (.invoke x as) (.invoke y bs)
  | typeIs {x y : Node α} {ty : Ty} (operand : Node.Similar I x y) :
      Payload.Similar I (.typeIs x ty) (.typeIs y ty)
  | assign {p : Parameter} {x y : Node α} (value : Node.Similar I x y) :
      Payload.Similar I (.assign p x) (.assign p y)
  | block {as bs : List (Node α)} (items : Node.SimilarAll I as bs) :
      Payload.Similar I (.block as) (.block bs)

/-- The same lambda. -/
inductive Lambda.Similar (I : Nat → Nat → Prop) : Lambda α → Lambda α → Prop
  | mk {i j : Nat} {name : Option String} {params : List Parameter} {x y : Node α} (id : I i j)
      (body : Node.Similar I x y) : Lambda.Similar I (.mk i name params x) (.mk j name params y)

/-- The same nodes. -/
inductive Node.SimilarAll (I : Nat → Nat → Prop) : List (Node α) → List (Node α) → Prop
  | nil : Node.SimilarAll I [] []
  | cons {x y : Node α} {xs ys : List (Node α)} (head : Node.Similar I x y)
      (tail : Node.SimilarAll I xs ys) : Node.SimilarAll I (x :: xs) (y :: ys)

/-- The same list initialisers. -/
inductive ElementInit.SimilarAll (I : Nat → Nat → Prop) :
    List (ElementInit α) → List (ElementInit α) → Prop
  | nil : ElementInit.SimilarAll I [] []
  | cons {add : Method} {as bs : List (Node α)} {xs ys : List (ElementInit α)}
      (args : Node.SimilarAll I as bs) (tail : ElementInit.SimilarAll I xs ys) :
      ElementInit.SimilarAll I (.mk add as :: xs) (.mk add bs :: ys)

/-- The same bindings. -/
inductive MemberBinding.SimilarAll (I : Nat → Nat → Prop) :
    List (MemberBinding α) → List (MemberBinding α) → Prop
  | nil : MemberBinding.SimilarAll I [] []
  | assign {m : Member} {x y : Node α} {xs ys : List (MemberBinding α)}
      (value : Node.Similar I x y) (tail : MemberBinding.SimilarAll I xs ys) :
      MemberBinding.SimilarAll I (.assign m x :: xs) (.assign m y :: ys)
  | bind {m : Member} {as bs xs ys : List (MemberBinding α)}
      (nested : MemberBinding.SimilarAll I as bs) (tail : MemberBinding.SimilarAll I xs ys) :
      MemberBinding.SimilarAll I (.bind m as :: xs) (.bind m bs :: ys)
  | list {m : Member} {as bs : List (ElementInit α)} {xs ys : List (MemberBinding α)}
      (inits : ElementInit.SimilarAll I as bs) (tail : MemberBinding.SimilarAll I xs ys) :
      MemberBinding.SimilarAll I (.list m as :: xs) (.list m bs :: ys)

end

section Mono

variable {I J : Nat → Nat → Prop}

mutual

theorem Node.Similar.mono (hij : ∀ i j, I i j → J i j) {x y : Node α} :
    Node.Similar I x y → Node.Similar J x y
  | .mk id payload => .mk (hij _ _ id) (payload.mono hij)

theorem Payload.Similar.mono (hij : ∀ i j, I i j → J i j) {p q : Payload α} :
    Payload.Similar I p q → Payload.Similar J p q
  | .constant v w => .constant v w
  | .parameter p => .parameter p
  | .unary operand => .unary (operand.mono hij)
  | .binary left right => .binary (left.mono hij) (right.mono hij)
  | .binaryWith left right conversion =>
      .binaryWith (left.mono hij) (right.mono hij) (conversion.mono hij)
  | .conditional test ifTrue ifFalse =>
      .conditional (test.mono hij) (ifTrue.mono hij) (ifFalse.mono hij)
  | .staticMember => .staticMember
  | .member target => .member (target.mono hij)
  | .callStatic args => .callStatic (args.mono hij)
  | .call target args => .call (target.mono hij) (args.mono hij)
  | .new args => .new (args.mono hij)
  | .newArray items => .newArray (items.mono hij)
  | .listInit new inits => .listInit (new.mono hij) (inits.mono hij)
  | .memberInit new bindings => .memberInit (new.mono hij) (bindings.mono hij)
  | .lambda h => .lambda (h.mono hij)
  | .invoke target args => .invoke (target.mono hij) (args.mono hij)
  | .typeIs operand => .typeIs (operand.mono hij)
  | .assign value => .assign (value.mono hij)
  | .block items => .block (items.mono hij)

theorem Lambda.Similar.mono (hij : ∀ i j, I i j → J i j) {l l' : Lambda α} :
    Lambda.Similar I l l' → Lambda.Similar J l l'
  | .mk id body => .mk (hij _ _ id) (body.mono hij)

theorem Node.SimilarAll.mono (hij : ∀ i j, I i j → J i j) {xs ys : List (Node α)} :
    Node.SimilarAll I xs ys → Node.SimilarAll J xs ys
  | .nil => .nil
  | .cons head tail => .cons (head.mono hij) (tail.mono hij)

theorem ElementInit.SimilarAll.mono (hij : ∀ i j, I i j → J i j) {xs ys : List (ElementInit α)} :
    ElementInit.SimilarAll I xs ys → ElementInit.SimilarAll J xs ys
  | .nil => .nil
  | .cons args tail => .cons (args.mono hij) (tail.mono hij)

theorem MemberBinding.SimilarAll.mono (hij : ∀ i j, I i j → J i j)
    {xs ys : List (MemberBinding α)} :
    MemberBinding.SimilarAll I xs ys → MemberBinding.SimilarAll J xs ys
  | .nil => .nil
  | .assign value tail => .assign (value.mono hij) (tail.mono hij)
  | .bind nested tail => .bind (nested.mono hij) (tail.mono hij)
  | .list inits tail => .list (inits.mono hij) (tail.mono hij)

end

end Mono

/-- The identity of a node or lambda that is met. -/
def Event.identity? : Event α → Option Nat
  | .node n => some n.id
  | .enter l => some l.id
  | _ => none

/-- The identities that occur among the events. -/
def Occurs (W : List (Event α)) (i : Nat) : Prop := ∃ e ∈ W, e.identity? = some i

theorem Payload.walk_unary_subset {W : List (Event α)} {kind : Kind} {x : Node α}
    {m : Option Method} {lifted : Bool} (h : (Payload.unary x m lifted).walk kind ⊆ W) :
    x.walk ⊆ W := by
  rw [Payload.walk] at h
  split at h
  · exact (List.append_subset.mp (List.cons_subset.mp h).2).1
  · exact h

section Refl

variable {I : Nat → Nat → Prop} {W : List (Event α)}

mutual

/-- A tree is similar to itself if its identities are related to themselves. -/
theorem Node.Similar.refl (hW : ∀ i, Occurs W i → I i i) :
    (n : Node α) → n.walk ⊆ W → n.Similar I n
  | .mk id kind _ p, h => by
      obtain ⟨hnode, hp⟩ := List.cons_subset.mp h
      exact .mk (hW id ⟨_, hnode, rfl⟩) (Payload.Similar.refl hW kind p hp)

theorem Payload.Similar.refl (hW : ∀ i, Occurs W i → I i i) (kind : Kind) :
    (p : Payload α) → p.walk kind ⊆ W → p.Similar I p
  | .constant v, _ => .constant v v
  | .parameter p, _ => .parameter p
  | .unary x _ _, h => .unary (Node.Similar.refl hW x (Payload.walk_unary_subset h))
  | .binary l r _ _ _ none, h => by
      obtain ⟨hl, hr⟩ := List.append_subset.mp h
      exact .binary (Node.Similar.refl hW l hl) (Node.Similar.refl hW r hr)
  | .binary l r _ _ _ (some c), h => by
      obtain ⟨hl, hrest⟩ := List.append_subset.mp h
      obtain ⟨hr, hc⟩ := List.append_subset.mp hrest
      exact .binaryWith (Node.Similar.refl hW l hl) (Node.Similar.refl hW r hr)
        (Lambda.Similar.refl hW c hc)
  | .conditional t a b, h => by
      obtain ⟨ht, hrest⟩ := List.append_subset.mp h
      obtain ⟨ha, hb⟩ := List.append_subset.mp hrest
      exact .conditional (Node.Similar.refl hW t ht) (Node.Similar.refl hW a ha)
        (Node.Similar.refl hW b hb)
  | .memberAccess none _, _ => .staticMember
  | .memberAccess (some x) _, h => .member (Node.Similar.refl hW x h)
  | .call none _ args, h => .callStatic (Node.SimilarAll.refl hW args h)
  | .call (some x) _ args, h => by
      obtain ⟨hx, hargs⟩ := List.append_subset.mp h
      exact .call (Node.Similar.refl hW x hx) (Node.SimilarAll.refl hW args hargs)
  | .new _ args, h => .new (Node.SimilarAll.refl hW args h)
  | .newArray items, h => .newArray (Node.SimilarAll.refl hW items h)
  | .listInit x inits, h => by
      obtain ⟨hx, hinits⟩ := List.append_subset.mp h
      exact .listInit (Node.Similar.refl hW x hx) (ElementInit.SimilarAll.refl hW inits hinits)
  | .memberInit x bindings, h => by
      obtain ⟨hx, hbindings⟩ := List.append_subset.mp h
      exact .memberInit (Node.Similar.refl hW x hx)
        (MemberBinding.SimilarAll.refl hW bindings hbindings)
  | .lambda l, h => .lambda (Lambda.Similar.refl hW l h)
  | .invoke x args, h => by
      obtain ⟨hx, hargs⟩ := List.append_subset.mp h
      exact .invoke (Node.Similar.refl hW x hx) (Node.SimilarAll.refl hW args hargs)
  | .typeIs x _, h => .typeIs (Node.Similar.refl hW x h)
  | .assign _ x, h => .assign (Node.Similar.refl hW x (List.cons_subset.mp h).2)
  | .block items, h => .block (Node.SimilarAll.refl hW items h)

theorem Lambda.Similar.refl (hW : ∀ i, Occurs W i → I i i) :
    (l : Lambda α) → l.walk ⊆ W → l.Similar I l
  | .mk id _ _ body, h => by
      obtain ⟨henter, hrest⟩ := List.cons_subset.mp h
      exact .mk (hW id ⟨_, henter, rfl⟩)
        (Node.Similar.refl hW body (List.append_subset.mp hrest).1)

theorem Node.SimilarAll.refl (hW : ∀ i, Occurs W i → I i i) :
    (ns : List (Node α)) → Node.walkAll ns ⊆ W → Node.SimilarAll I ns ns
  | [], _ => .nil
  | n :: ns, h => by
      obtain ⟨hn, hns⟩ := List.append_subset.mp h
      exact .cons (Node.Similar.refl hW n hn) (Node.SimilarAll.refl hW ns hns)

theorem ElementInit.SimilarAll.refl (hW : ∀ i, Occurs W i → I i i) :
    (inits : List (ElementInit α)) → ElementInit.walkAll inits ⊆ W →
    ElementInit.SimilarAll I inits inits
  | [], _ => .nil
  | .mk _ args :: rest, h => by
      obtain ⟨hargs, hrest⟩ := List.append_subset.mp h
      exact .cons (Node.SimilarAll.refl hW args hargs) (ElementInit.SimilarAll.refl hW rest hrest)

theorem MemberBinding.SimilarAll.refl (hW : ∀ i, Occurs W i → I i i) :
    (bindings : List (MemberBinding α)) → MemberBinding.walkAll bindings ⊆ W →
    MemberBinding.SimilarAll I bindings bindings
  | [], _ => .nil
  | .assign _ x :: rest, h => by
      obtain ⟨hx, hrest⟩ := List.append_subset.mp h
      exact .assign (Node.Similar.refl hW x hx) (MemberBinding.SimilarAll.refl hW rest hrest)
  | .bind _ nested :: rest, h => by
      obtain ⟨hnested, hrest⟩ := List.append_subset.mp h
      exact .bind (MemberBinding.SimilarAll.refl hW nested hnested)
        (MemberBinding.SimilarAll.refl hW rest hrest)
  | .list _ inits :: rest, h => by
      obtain ⟨hinits, hrest⟩ := List.append_subset.mp h
      exact .list (ElementInit.SimilarAll.refl hW inits hinits)
        (MemberBinding.SimilarAll.refl hW rest hrest)

end

end Refl

/-! ## Taking identities in step -/

/-- Two computations that take the same number of identities. Their results are related if the
identities are, in the order in which they are taken, and those in `kept` are related to
themselves. -/
def InStep {β : Type} (kept : Nat → Prop) (S : (Nat → Nat → Prop) → β → β → Prop)
    (x y : Fresh β) : Prop :=
  ∀ k k', ∃ c, (x k).2 = k + c ∧ (y k').2 = k' + c ∧
    ∀ I : Nat → Nat → Prop, (∀ i, kept i → I i i) → (∀ d < c, I (k + d) (k' + d)) →
      S I (x k).1 (y k').1

namespace InStep

variable {β γ δ : Type} {kept : Nat → Prop} {S : (Nat → Nat → Prop) → β → β → Prop}
  {T : (Nat → Nat → Prop) → γ → γ → Prop} {U : (Nat → Nat → Prop) → δ → δ → Prop}

theorem pure {a b : β} (h : ∀ I : Nat → Nat → Prop, (∀ i, kept i → I i i) → S I a b) :
    InStep kept S (Pure.pure a) (Pure.pure b) :=
  fun _ _ => ⟨0, rfl, rfl, fun I hkept _ => h I hkept⟩

theorem fresh : InStep kept (fun I => I) fresh fresh :=
  fun _ _ => ⟨1, rfl, rfl, fun _ _ hnew => hnew 0 Nat.zero_lt_one⟩

theorem map {x y : Fresh β} {f g : β → γ} (hx : InStep kept S x y)
    (hf : ∀ I a b, S I a b → T I (f a) (g b)) :
    InStep kept T (do return f (← x)) (do return g (← y)) := by
  intro k k'
  obtain ⟨c, hc, hc', hS⟩ := hx k k'
  exact ⟨c, hc, hc', fun I hkept hnew => hf I _ _ (hS I hkept hnew)⟩

/-- The second computation goes on where the first one stopped. What it returns may also depend on
what the first one returned. -/
theorem bind {x y : Fresh β} {f g : β → Fresh γ} (hx : InStep kept S x y)
    (hf : ∀ a b, InStep kept (fun I c d => S I a b → T I c d) (f a) (g b)) :
    InStep kept T (x >>= f) (y >>= g) := by
  intro k k'
  obtain ⟨c, hc, hc', hS⟩ := hx k k'
  obtain ⟨d, hd, hd', hT⟩ := hf (x k).1 (y k').1 (x k).2 (y k').2
  refine ⟨c + d, ?_, ?_, fun I hkept hnew => ?_⟩
  · calc (f (x k).1 (x k).2).2 = (x k).2 + d := hd
      _ = k + (c + d) := by rw [hc, Nat.add_assoc]
  · calc (g (y k').1 (y k').2).2 = (y k').2 + d := hd'
      _ = k' + (c + d) := by rw [hc', Nat.add_assoc]
  · refine hT I hkept (fun e he => ?_) (hS I hkept fun e he => hnew e (by omega))
    have hlater := hnew (c + e) (by omega)
    rwa [hc, hc', Nat.add_assoc, Nat.add_assoc]

theorem map₂ {x y : Fresh β} {x' y' : Fresh γ} {f g : β → γ → δ} (hx : InStep kept S x y)
    (hx' : InStep kept T x' y') (hf : ∀ I a b a' b', S I a b → T I a' b' → U I (f a a') (g b b')) :
    InStep kept U
      (do
        let a ← x
        let a' ← x'
        return f a a')
      (do
        let b ← y
        let b' ← y'
        return g b b') :=
  hx.bind fun a b => hx'.map fun I a' b' hT hS => hf I a b a' b' hS hT

end InStep

section Rebuild

variable {s s' : Substitution α} {W : List (Event α)}

mutual

theorem Node.rebuild_inStep (hkeys : ∀ x, (s.lookup x).isSome = (s'.lookup x).isSome) :
    (n : Node α) → n.walk ⊆ W →
    InStep (Occurs W) Node.Similar (n.rebuild s) (n.rebuild s')
  | .mk id kind ty payload, hW => by
      obtain ⟨hnode, hpayload⟩ := List.cons_subset.mp hW
      have hid : Occurs W id := ⟨_, hnode, rfl⟩
      have ih := Payload.rebuild_inStep hkeys kind payload
      cases payload with
      | constant v => exact .pure fun I hkept => .mk (hkept id hid) (.constant v v)
      | parameter p =>
          have hp := hkeys p.id
          simp only [Node.rebuild]
          cases hv : s.lookup p.id with
          | none =>
              rw [hv] at hp
              obtain hv' : s'.lookup p.id = none := by simpa using hp.symm
              rw [hv']
              exact .pure fun I hkept => .mk (hkept id hid) (.parameter p)
          | some v =>
              rw [hv] at hp
              obtain ⟨w, hw⟩ := Option.isSome_iff_exists.mp hp.symm
              rw [hw]
              exact InStep.fresh.map fun I _ _ hi => .mk hi (.constant v w)
      | binary l r m lifted toNull conversion =>
          cases conversion <;> exact (ih hpayload).map₂ .fresh fun I _ _ _ _ hp hi => .mk hi hp
      | memberAccess target m =>
          cases target <;> exact (ih hpayload).map₂ .fresh fun I _ _ _ _ hp hi => .mk hi hp
      | call target m args =>
          cases target <;> exact (ih hpayload).map₂ .fresh fun I _ _ _ _ hp hi => .mk hi hp
      | _ => exact (ih hpayload).map₂ .fresh fun I _ _ _ _ hp hi => .mk hi hp

theorem Payload.rebuild_inStep (hkeys : ∀ x, (s.lookup x).isSome = (s'.lookup x).isSome)
    (kind : Kind) : (p : Payload α) → p.walk kind ⊆ W →
    InStep (Occurs W) Payload.Similar (p.rebuild s) (p.rebuild s')
  | .constant v, _ => .pure fun _ _ => .constant v v
  | .parameter p, _ => .pure fun _ _ => .parameter p
  | .unary x _ _, hW =>
      (x.rebuild_inStep hkeys (Payload.walk_unary_subset hW)).map fun _ _ _ => .unary
  | .binary l r _ _ _ none, hW => by
      obtain ⟨hl, hr⟩ := List.append_subset.mp hW
      exact (l.rebuild_inStep hkeys hl).map₂ (r.rebuild_inStep hkeys hr)
        fun _ _ _ _ _ => .binary
  | .binary l r _ _ _ (some c), hW => by
      obtain ⟨hl, hrest⟩ := List.append_subset.mp hW
      obtain ⟨hr, hc⟩ := List.append_subset.mp hrest
      exact (l.rebuild_inStep hkeys hl).bind fun _ _ =>
        (r.rebuild_inStep hkeys hr).map₂ (c.rebuild_inStep hkeys hc)
          fun _ _ _ _ _ hr hc hl => .binaryWith hl hr hc
  | .conditional t a b, hW => by
      obtain ⟨ht, hrest⟩ := List.append_subset.mp hW
      obtain ⟨ha, hb⟩ := List.append_subset.mp hrest
      exact (t.rebuild_inStep hkeys ht).bind fun _ _ =>
        (a.rebuild_inStep hkeys ha).map₂ (b.rebuild_inStep hkeys hb)
          fun _ _ _ _ _ ha hb ht => .conditional ht ha hb
  | .memberAccess none _, _ => .pure fun _ _ => .staticMember
  | .memberAccess (some x) _, hW => (x.rebuild_inStep hkeys hW).map fun _ _ _ => .member
  | .call none _ args, hW => (Node.rebuildAll_inStep hkeys args hW).map fun _ _ _ => .callStatic
  | .call (some x) _ args, hW => by
      obtain ⟨hx, hargs⟩ := List.append_subset.mp hW
      exact (x.rebuild_inStep hkeys hx).map₂ (Node.rebuildAll_inStep hkeys args hargs)
        fun _ _ _ _ _ => .call
  | .new _ args, hW => (Node.rebuildAll_inStep hkeys args hW).map fun _ _ _ => .new
  | .newArray items, hW => (Node.rebuildAll_inStep hkeys items hW).map fun _ _ _ => .newArray
  | .listInit x inits, hW => by
      obtain ⟨hx, hinits⟩ := List.append_subset.mp hW
      exact (x.rebuild_inStep hkeys hx).map₂ (ElementInit.rebuildAll_inStep hkeys inits hinits)
        fun _ _ _ _ _ => .listInit
  | .memberInit x bindings, hW => by
      obtain ⟨hx, hbindings⟩ := List.append_subset.mp hW
      exact (x.rebuild_inStep hkeys hx).map₂
        (MemberBinding.rebuildAll_inStep hkeys bindings hbindings) fun _ _ _ _ _ => .memberInit
  | .lambda l, hW => (l.rebuild_inStep hkeys hW).map fun _ _ _ => .lambda
  | .invoke x args, hW => by
      obtain ⟨hx, hargs⟩ := List.append_subset.mp hW
      exact (x.rebuild_inStep hkeys hx).map₂ (Node.rebuildAll_inStep hkeys args hargs)
        fun _ _ _ _ _ => .invoke
  | .typeIs x _, hW => (x.rebuild_inStep hkeys hW).map fun _ _ _ => .typeIs
  | .assign _ x, hW =>
      (x.rebuild_inStep hkeys (List.cons_subset.mp hW).2).map fun _ _ _ => .assign
  | .block items, hW => (Node.rebuildAll_inStep hkeys items hW).map fun _ _ _ => .block

theorem Lambda.rebuild_inStep (hkeys : ∀ x, (s.lookup x).isSome = (s'.lookup x).isSome) :
    (l : Lambda α) → l.walk ⊆ W →
    InStep (Occurs W) Lambda.Similar (l.rebuild s) (l.rebuild s')
  | .mk _ _ _ body, hW => by
      have hbody := (List.append_subset.mp (List.cons_subset.mp hW).2).1
      exact (body.rebuild_inStep hkeys hbody).map₂ .fresh fun _ _ _ _ _ hb hi => .mk hi hb

theorem Node.rebuildAll_inStep (hkeys : ∀ x, (s.lookup x).isSome = (s'.lookup x).isSome) :
    (ns : List (Node α)) → Node.walkAll ns ⊆ W →
    InStep (Occurs W) Node.SimilarAll (Node.rebuildAll s ns) (Node.rebuildAll s' ns)
  | [], _ => .pure fun _ _ => .nil
  | n :: ns, hW => by
      obtain ⟨hn, hns⟩ := List.append_subset.mp hW
      exact (n.rebuild_inStep hkeys hn).map₂ (Node.rebuildAll_inStep hkeys ns hns)
        fun _ _ _ _ _ => .cons

theorem ElementInit.rebuildAll_inStep
    (hkeys : ∀ x, (s.lookup x).isSome = (s'.lookup x).isSome) :
    (inits : List (ElementInit α)) → ElementInit.walkAll inits ⊆ W →
    InStep (Occurs W) ElementInit.SimilarAll (ElementInit.rebuildAll s inits)
      (ElementInit.rebuildAll s' inits)
  | [], _ => .pure fun _ _ => .nil
  | .mk _ args :: rest, hW => by
      obtain ⟨hargs, hrest⟩ := List.append_subset.mp hW
      exact (Node.rebuildAll_inStep hkeys args hargs).map₂
        (ElementInit.rebuildAll_inStep hkeys rest hrest) fun _ _ _ _ _ => .cons

theorem MemberBinding.rebuildAll_inStep
    (hkeys : ∀ x, (s.lookup x).isSome = (s'.lookup x).isSome) :
    (bindings : List (MemberBinding α)) → MemberBinding.walkAll bindings ⊆ W →
    InStep (Occurs W) MemberBinding.SimilarAll (MemberBinding.rebuildAll s bindings)
      (MemberBinding.rebuildAll s' bindings)
  | [], _ => .pure fun _ _ => .nil
  | .assign _ x :: rest, hW => by
      obtain ⟨hx, hrest⟩ := List.append_subset.mp hW
      exact (x.rebuild_inStep hkeys hx).map₂ (MemberBinding.rebuildAll_inStep hkeys rest hrest)
        fun _ _ _ _ _ => .assign
  | .bind _ nested :: rest, hW => by
      obtain ⟨hnested, hrest⟩ := List.append_subset.mp hW
      exact (MemberBinding.rebuildAll_inStep hkeys nested hnested).map₂
        (MemberBinding.rebuildAll_inStep hkeys rest hrest) fun _ _ _ _ _ => .bind
  | .list _ inits :: rest, hW => by
      obtain ⟨hinits, hrest⟩ := List.append_subset.mp hW
      exact (ElementInit.rebuildAll_inStep hkeys inits hinits).map₂
        (MemberBinding.rebuildAll_inStep hkeys rest hrest) fun _ _ _ _ _ => .list

end

/-- A tree is similar to itself after two substitutions for the same parameters. -/
theorem Node.substitute_inStep (hempty : s.isEmpty = s'.isEmpty)
    (hkeys : ∀ x, (s.lookup x).isSome = (s'.lookup x).isSome) (t : Node α) :
    InStep (Occurs t.walk) Node.Similar (t.substitute s) (t.substitute s') := by
  rw [Node.substitute, Node.substitute, ← hempty]
  split
  · exact .pure fun I hkept => Node.Similar.refl hkept t (List.Subset.refl _)
  · exact t.rebuild_inStep hkeys (List.Subset.refl _)

end Rebuild

/-! ## Constants -/

/-- The value of a leaf that is a constant. -/
def Leaf.constant? : Leaf α → Option α
  | .constant v => some v
  | .use _ => none

@[simp] theorem Leaf.constant?_skip (x : Leaf α) : x.skip.constant? = x.constant? := by
  cases x <;> rfl

@[simp] theorem Leaf.constant?_under (params : List Parameter) (x : Leaf α) :
    (x.under params).constant? = x.constant? := by
  cases x <;> rfl

/-- The constants in a tree, from left to right. -/
def Node.constants (t : Node α) : List α := t.leaves.filterMap Leaf.constant?

theorem Leaf.constant?_replace {R : α → α → Prop} {s s' : Substitution α}
    (hvalues : ∀ x, Option.Rel R (s.lookup x) (s'.lookup x)) {x : Leaf α}
    (hx : ∀ v, x = .constant v → R v v) :
    Option.Rel R (x.replace s).constant? (x.replace s').constant? := by
  cases x with
  | constant v => exact .some (hx v rfl)
  | use u =>
      cases ht : u.isTarget with
      | true =>
          simp only [Leaf.replace, ht, ↓reduceIte]
          exact .none
      | false =>
          have hv := hvalues u.parameter.id
          simp only [Leaf.replace, ht, Bool.false_eq_true, ↓reduceIte]
          revert hv
          generalize s.lookup u.parameter.id = a
          generalize s'.lookup u.parameter.id = b
          rintro (h | _)
          · exact .some h
          · exact .none

theorem forall₂_filterMap {β γ : Type} {R : γ → γ → Prop} {f g : β → Option γ} {xs : List β}
    (h : ∀ x ∈ xs, Option.Rel R (f x) (g x)) :
    List.Forall₂ R (xs.filterMap f) (xs.filterMap g) := by
  induction xs with
  | nil => exact .nil
  | cons x xs ih =>
      have hx := h x List.mem_cons_self
      have hxs := ih fun y hy => h y (List.mem_cons_of_mem x hy)
      rw [List.filterMap_cons, List.filterMap_cons]
      revert hx
      generalize f x = a
      generalize g x = b
      rintro (hab | _)
      · exact .cons hab hxs
      · exact hxs

/-- Two substitutions put their values into the same places. -/
theorem Node.constants_substitute {R : α → α → Prop} {s s' : Substitution α}
    (hvalues : ∀ x, Option.Rel R (s.lookup x) (s'.lookup x)) {t : Node α}
    (hconstants : ∀ v ∈ t.constants, R v v) (k k' : Nat) :
    List.Forall₂ R (t.substitute s k).1.constants (t.substitute s' k').1.constants := by
  rw [Node.constants, Node.constants, Node.leaves_substitute, Node.leaves_substitute,
    List.filterMap_map, List.filterMap_map]
  refine forall₂_filterMap fun x hx => Leaf.constant?_replace hvalues ?_
  rintro v rfl
  exact hconstants v (List.mem_filterMap.mpr ⟨_, hx, rfl⟩)

end ExprTree
