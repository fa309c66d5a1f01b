import ExprTree.Node.Substitute
import ExprTree.Proofs.Walk

set_option autoImplicit false

/-! # The leaves of a tree

A tree ends in constants and in uses of parameters, which are read or assigned. `Node.leaves` lists
them in the order of a walk. Each use knows whether a lambda of the tree around it declares the
parameter, and whether it stands in a part of the tree that is never compiled.

* The free parameters of a tree are those of its free leaves (`Node.mem_freeParameters`).
* A substitution changes leaves one by one, and looks at nothing but the parameter that is read
  (`Node.leaves_substitute`).
-/

namespace ExprTree

variable {α : Type}

/-- A place where a parameter is used. -/
structure Use where
  parameter : Parameter
  /-- The parameter is assigned here, and not read. -/
  isTarget : Bool
  /-- A lambda of the tree around this place declares the parameter. -/
  isBound : Bool := false
  /-- The place belongs to a part of the tree for which no code is made. -/
  isSkipped : Bool := false

/-- Where a tree ends. -/
inductive Leaf (α : Type) : Type
  | constant (v : α)
  | use (u : Use)

namespace Leaf

/-- The leaf, seen from outside of a lambda with these parameters. -/
def under (params : List Parameter) : Leaf α → Leaf α
  | .constant v => .constant v
  | .use u => .use { u with isBound := u.isBound || params.any (·.id == u.parameter.id) }

/-- The leaf, as part of something that is not compiled. -/
def skip : Leaf α → Leaf α
  | .constant v => .constant v
  | .use u => .use { u with isSkipped := true }

/-- The parameter of a free use. -/
def free? : Leaf α → Option Parameter
  | .constant _ => none
  | .use u => if u.isBound then none else some u.parameter

/-- The leaf after a substitution, which replaces reads and keeps targets. -/
def replace (s : Substitution α) : Leaf α → Leaf α
  | .constant v => .constant v
  | .use u =>
      if u.isTarget then .use u
      else
        match s.lookup u.parameter.id with
        | some v => .constant v
        | none => .use u

@[simp] theorem free?_skip (x : Leaf α) : x.skip.free? = x.free? := by
  cases x <;> rfl

theorem free?_under (params : List Parameter) (x : Leaf α) :
    (x.under params).free? = x.free?.filter fun p => !params.any (·.id == p.id) := by
  cases x with
  | constant v => rfl
  | use u =>
      cases hb : u.isBound with
      | true => simp [under, free?, hb]
      | false =>
          cases hp : params.any (·.id == u.parameter.id) <;>
            simp [under, free?, hb, hp, Option.filter]

theorem replace_skip (s : Substitution α) (x : Leaf α) :
    (x.skip).replace s = (x.replace s).skip := by
  cases x with
  | constant v => rfl
  | use u =>
      cases ht : u.isTarget with
      | true => simp [skip, replace, ht]
      | false => cases hv : s.lookup u.parameter.id <;> simp [skip, replace, ht, hv]

theorem replace_under (s : Substitution α) (params : List Parameter) (x : Leaf α) :
    (x.under params).replace s = (x.replace s).under params := by
  cases x with
  | constant v => rfl
  | use u =>
      cases ht : u.isTarget with
      | true => simp [under, replace, ht]
      | false => cases hv : s.lookup u.parameter.id <;> simp [under, replace, ht, hv]

end Leaf

mutual

/-- The leaves of a node, in the order of a walk. -/
def Node.leaves : Node α → List (Leaf α)
  | .mk _ kind _ payload => Payload.leaves kind payload

/-- The leaves of what a node of that kind holds. The target of a static member or method, the
arguments of a default value, and a conversion where nothing is coalesced are not compiled. -/
def Payload.leaves (kind : Kind) : Payload α → List (Leaf α)
  | .constant v => [.constant v]
  | .parameter p => [.use { parameter := p, isTarget := false }]
  | .unary x _ _ => Node.leaves x
  | .binary l r _ _ _ none => Node.leaves l ++ Node.leaves r
  | .binary l r _ _ _ (some c) =>
      Node.leaves l ++ (Node.leaves r ++
        if kind = .coalesce then Lambda.leaves c else (Lambda.leaves c).map Leaf.skip)
  | .conditional t a b => Node.leaves t ++ (Node.leaves a ++ Node.leaves b)
  | .memberAccess none _ => []
  | .memberAccess (some x) m =>
      if m.isStatic then (Node.leaves x).map Leaf.skip else Node.leaves x
  | .call none _ args => Node.leavesAll args
  | .call (some x) m args =>
      (if m.isStatic then (Node.leaves x).map Leaf.skip else Node.leaves x) ++ Node.leavesAll args
  | .new none args => (Node.leavesAll args).map Leaf.skip
  | .new (some _) args => Node.leavesAll args
  | .newArray items => Node.leavesAll items
  | .listInit x inits => Node.leaves x ++ ElementInit.leavesAll inits
  | .memberInit x bindings => Node.leaves x ++ MemberBinding.leavesAll bindings
  | .lambda l => Lambda.leaves l
  | .invoke x args => Node.leaves x ++ Node.leavesAll args
  | .typeIs x _ => Node.leaves x
  | .assign p x => .use { parameter := p, isTarget := true } :: Node.leaves x
  | .block items => Node.leavesAll items

/-- The leaves of a lambda. -/
def Lambda.leaves : Lambda α → List (Leaf α)
  | .mk _ _ params body => (Node.leaves body).map (Leaf.under params)

/-- The leaves of several nodes in order. -/
def Node.leavesAll : List (Node α) → List (Leaf α)
  | [] => []
  | n :: ns => Node.leaves n ++ Node.leavesAll ns

/-- The leaves of list initialisers in order. -/
def ElementInit.leavesAll : List (ElementInit α) → List (Leaf α)
  | [] => []
  | .mk _ args :: rest => Node.leavesAll args ++ ElementInit.leavesAll rest

/-- The leaves of bindings in order. -/
def MemberBinding.leavesAll : List (MemberBinding α) → List (Leaf α)
  | [] => []
  | .assign _ x :: rest => Node.leaves x ++ MemberBinding.leavesAll rest
  | .bind _ nested :: rest => MemberBinding.leavesAll nested ++ MemberBinding.leavesAll rest
  | .list _ inits :: rest => ElementInit.leavesAll inits ++ MemberBinding.leavesAll rest

end

/-! ## Free leaves

The search for free parameters walks over all events, but only the free leaves matter to it: it ends
where it would end if it had met just these, one after the other. -/

/-- The parameters of the free leaves, with repetitions. -/
def freeOf (xs : List (Leaf α)) : List Parameter := xs.filterMap Leaf.free?

@[simp] theorem freeOf_append (xs ys : List (Leaf α)) :
    freeOf (xs ++ ys) = freeOf xs ++ freeOf ys := List.filterMap_append

@[simp] theorem freeOf_skip (xs : List (Leaf α)) : freeOf (xs.map Leaf.skip) = freeOf xs := by
  rw [freeOf, freeOf, List.filterMap_map]
  congr 1
  funext x
  exact Leaf.free?_skip x

theorem freeOf_under (params : List Parameter) (xs : List (Leaf α)) :
    freeOf (xs.map (Leaf.under params))
      = (freeOf xs).filter fun p => !params.any (·.id == p.id) := by
  rw [freeOf, freeOf, List.filterMap_map, List.filter_filterMap]
  congr 1
  funext x
  exact Leaf.free?_under params x

theorem mem_freeOf {xs : List (Leaf α)} {p : Parameter} :
    p ∈ freeOf xs ↔ ∃ u, .use u ∈ xs ∧ u.isBound = false ∧ u.parameter = p := by
  simp only [freeOf, List.mem_filterMap]
  constructor
  · rintro ⟨x, hx, hp⟩
    cases x with
    | constant v => cases hp
    | use u =>
        cases hb : u.isBound with
        | true => simp [Leaf.free?, hb] at hp
        | false => exact ⟨u, hx, hb, by simpa [Leaf.free?, hb] using hp⟩
  · rintro ⟨u, hu, hb, rfl⟩
    exact ⟨.use u, hu, by simp [Leaf.free?, hb]⟩

namespace FreeScan

/-- The search after it has met these parameters. -/
def meet (s : FreeScan) (ps : List Parameter) : FreeScan :=
  ps.foldl (fun s p => s.step (.mention p : Event Unit)) s

@[simp] theorem meet_nil (s : FreeScan) : s.meet [] = s := rfl

@[simp] theorem meet_append (s : FreeScan) (ps qs : List Parameter) :
    s.meet (ps ++ qs) = (s.meet ps).meet qs := List.foldl_append

theorem declared_meet (s : FreeScan) (ps : List Parameter) :
    (s.meet ps).declared = s.declared := by
  induction ps generalizing s with
  | nil => rfl
  | cons p ps ih =>
      have hstep : (s.meet [p]).declared = s.declared := by
        simp only [meet, List.foldl_cons, List.foldl_nil, step]
        split <;> rfl
      calc (s.meet (p :: ps)).declared
          = ((s.meet [p]).meet ps).declared := rfl
        _ = s.declared := by rw [ih, hstep]

/-- What is met inside a lambda counts outside, unless the lambda declares it. -/
theorem meet_under (s : FreeScan) (params : List Parameter) (ps : List Parameter) :
    (s.declare params).meet ps
      = (s.meet (ps.filter fun p => !params.any (·.id == p.id))).declare params := by
  induction ps generalizing s with
  | nil => rfl
  | cons p ps ih =>
      have hcons : ∀ (t : FreeScan), t.meet (p :: ps) = (t.meet [p]).meet ps := fun _ => rfl
      have hd := s.isDeclared_declare params p
      cases hp : params.any (·.id == p.id) with
      | true =>
          -- declared by the lambda, so nothing happens on either side
          have hin : (s.declare params).meet [p] = s.declare params := by
            simp only [meet, List.foldl_cons, List.foldl_nil, step, hd, hp, Bool.true_or,
              ↓reduceIte]
          rw [hcons, hin, ih]
          simp [hp]
      | false =>
          have hk : (s.declare params).isKnown p = s.isKnown p := rfl
          have hin : (s.declare params).meet [p] = (s.meet [p]).declare params := by
            simp only [meet, List.foldl_cons, List.foldl_nil, step, hd, hp, hk, Bool.false_or]
            by_cases hb : (s.isDeclared p || s.isKnown p) = true
            · rw [if_pos hb, if_pos hb]
            · rw [if_neg hb, if_neg hb]
              rfl
          rw [hcons, hin, ih]
          simp [hp, meet]

/-- The search finds the parameters that it is shown, except those that are declared. -/
theorem mem_free_meet {s : FreeScan} {ps : List Parameter} {x : Nat} :
    (∃ q ∈ (s.meet ps).free, q.id = x) ↔
      (∃ q ∈ s.free, q.id = x) ∨ ∃ q ∈ ps, s.isDeclared q = false ∧ q.id = x := by
  induction ps generalizing s with
  | nil => simp
  | cons p ps ih =>
      have hcons : s.meet (p :: ps) = (s.meet [p]).meet ps := rfl
      have hdec : ∀ q, (s.meet [p]).isDeclared q = s.isDeclared q := fun q => by
        rw [isDeclared, declared_meet]
        rfl
      -- after one parameter: it is found, unless it is declared
      have hone : (∃ q ∈ (s.meet [p]).free, q.id = x) ↔
          (∃ q ∈ s.free, q.id = x) ∨ (s.isDeclared p = false ∧ p.id = x) := by
        simp only [meet, List.foldl_cons, List.foldl_nil, step]
        cases hd : s.isDeclared p with
        | true => simp
        | false =>
            cases hk : s.isKnown p with
            | true =>
                have hknown : ∃ q ∈ s.free, q.id = p.id := by simpa [isKnown] using hk
                simp only [Bool.or_true, ↓reduceIte, true_and, iff_self_or]
                rintro rfl
                exact hknown
            | false => simp [or_and_right, exists_or]
      rw [hcons, ih, hone]
      simp only [hdec, List.mem_cons, exists_eq_or_imp, or_assoc]

end FreeScan

mutual

theorem Node.foldl_walk : (n : Node α) → (s : FreeScan) →
    n.walk.foldl FreeScan.step s = s.meet (freeOf n.leaves)
  | .mk _ kind _ payload, s => Payload.foldl_walk kind payload s

theorem Payload.foldl_walk (kind : Kind) : (p : Payload α) → (s : FreeScan) →
    (p.walk kind).foldl FreeScan.step s = s.meet (freeOf (p.leaves kind))
  | .constant _, _ => rfl
  | .parameter _, _ => rfl
  | .unary x _ _, s => by
      have hx := x.foldl_walk s
      rw [Payload.walk]
      split
      · simpa [FreeScan.step, Payload.leaves] using hx
      · exact hx
  | .binary l r _ _ _ none, s => by
      rw [Payload.walk, Payload.leaves, List.foldl_append, freeOf_append, FreeScan.meet_append,
        l.foldl_walk, r.foldl_walk]
  | .binary l r _ _ _ (some c), s => by
      have hc : freeOf (if kind = .coalesce then c.leaves else c.leaves.map Leaf.skip)
          = freeOf c.leaves := by split <;> simp
      rw [Payload.walk, Payload.leaves, List.foldl_append, List.foldl_append, freeOf_append,
        freeOf_append, FreeScan.meet_append, FreeScan.meet_append, hc, l.foldl_walk, r.foldl_walk,
        c.foldl_walk]
  | .conditional t a b, s => by
      rw [Payload.walk, Payload.leaves, List.foldl_append, List.foldl_append, freeOf_append,
        freeOf_append, FreeScan.meet_append, FreeScan.meet_append, t.foldl_walk, a.foldl_walk,
        b.foldl_walk]
  | .memberAccess none _, _ => rfl
  | .memberAccess (some x) m, s => by
      rw [Payload.walk, Payload.leaves, x.foldl_walk]
      split <;> simp
  | .call none _ args, s => Node.foldl_walkAll args s
  | .call (some x) m args, s => by
      have hx : freeOf (if m.isStatic then x.leaves.map Leaf.skip else x.leaves)
          = freeOf x.leaves := by split <;> simp
      rw [Payload.walk, Payload.leaves, List.foldl_append, freeOf_append, FreeScan.meet_append, hx,
        x.foldl_walk, Node.foldl_walkAll args]
  | .new none args, s => by
      rw [Payload.walk, Payload.leaves, freeOf_skip, Node.foldl_walkAll args]
  | .new (some _) args, s => Node.foldl_walkAll args s
  | .newArray items, s => Node.foldl_walkAll items s
  | .listInit x inits, s => by
      rw [Payload.walk, Payload.leaves, List.foldl_append, freeOf_append, FreeScan.meet_append,
        x.foldl_walk, ElementInit.foldl_walkAll inits]
  | .memberInit x bindings, s => by
      rw [Payload.walk, Payload.leaves, List.foldl_append, freeOf_append, FreeScan.meet_append,
        x.foldl_walk, MemberBinding.foldl_walkAll bindings]
  | .lambda l, s => l.foldl_walk s
  | .invoke x args, s => by
      rw [Payload.walk, Payload.leaves, List.foldl_append, freeOf_append, FreeScan.meet_append,
        x.foldl_walk, Node.foldl_walkAll args]
  | .typeIs x _, s => x.foldl_walk s
  | .assign p x, s => by
      rw [Payload.walk, List.foldl_cons, x.foldl_walk]
      rfl
  | .block items, s => Node.foldl_walkAll items s

/-- On the way out of a lambda its declarations are forgotten. -/
theorem Lambda.foldl_walk : (l : Lambda α) → (s : FreeScan) →
    l.walk.foldl FreeScan.step s = s.meet (freeOf l.leaves)
  | .mk id name params body, s => by
      have hbody := body.foldl_walk (s.declare params)
      rw [FreeScan.meet_under, ← freeOf_under] at hbody
      rw [Lambda.walk, List.cons_append, List.foldl_cons, List.foldl_append]
      have henter : s.step (.enter (.mk id name params body)) = s.declare params := rfl
      rw [henter, hbody, Lambda.leaves]
      exact FreeScan.retract_declare _ params

theorem Node.foldl_walkAll : (ns : List (Node α)) → (s : FreeScan) →
    (Node.walkAll ns).foldl FreeScan.step s = s.meet (freeOf (Node.leavesAll ns))
  | [], _ => rfl
  | n :: ns, s => by
      rw [Node.walkAll, Node.leavesAll, List.foldl_append, freeOf_append, FreeScan.meet_append,
        n.foldl_walk, Node.foldl_walkAll ns]

theorem ElementInit.foldl_walkAll : (inits : List (ElementInit α)) → (s : FreeScan) →
    (ElementInit.walkAll inits).foldl FreeScan.step s
      = s.meet (freeOf (ElementInit.leavesAll inits))
  | [], _ => rfl
  | .mk _ args :: rest, s => by
      rw [ElementInit.walkAll, ElementInit.leavesAll, List.foldl_append, freeOf_append,
        FreeScan.meet_append, Node.foldl_walkAll args, ElementInit.foldl_walkAll rest]

theorem MemberBinding.foldl_walkAll : (bs : List (MemberBinding α)) → (s : FreeScan) →
    (MemberBinding.walkAll bs).foldl FreeScan.step s
      = s.meet (freeOf (MemberBinding.leavesAll bs))
  | [], _ => rfl
  | .assign _ x :: rest, s => by
      rw [MemberBinding.walkAll, MemberBinding.leavesAll, List.foldl_append, freeOf_append,
        FreeScan.meet_append, x.foldl_walk, MemberBinding.foldl_walkAll rest]
  | .bind _ nested :: rest, s => by
      rw [MemberBinding.walkAll, MemberBinding.leavesAll, List.foldl_append, freeOf_append,
        FreeScan.meet_append, MemberBinding.foldl_walkAll nested,
        MemberBinding.foldl_walkAll rest]
  | .list _ inits :: rest, s => by
      rw [MemberBinding.walkAll, MemberBinding.leavesAll, List.foldl_append, freeOf_append,
        FreeScan.meet_append, ElementInit.foldl_walkAll inits, MemberBinding.foldl_walkAll rest]

end

/-- A parameter is found to be free exactly if it has a free leaf. -/
theorem Node.mem_freeParameters {n : Node α} {x : Nat} :
    (∃ q ∈ n.freeParameters, q.id = x) ↔ ∃ p ∈ freeOf n.leaves, p.id = x := by
  rw [Node.freeParameters, Node.foldl_walk, FreeScan.mem_free_meet]
  simp [FreeScan.isDeclared]

theorem Node.freeParameters_eq_nil {n : Node α} : n.freeParameters = [] ↔ freeOf n.leaves = [] := by
  simp only [List.eq_nil_iff_forall_not_mem]
  constructor
  · intro h p hp
    obtain ⟨q, hq, -⟩ := Node.mem_freeParameters.mpr ⟨p, hp, rfl⟩
    exact h q hq
  · intro h q hq
    obtain ⟨p, hp, -⟩ := Node.mem_freeParameters.mp ⟨q, hq, rfl⟩
    exact h p hp

/-! ## Substitution -/

section Substitution

variable (s : Substitution α)

theorem replace_skipAll (xs : List (Leaf α)) :
    (xs.map Leaf.skip).map (Leaf.replace s) = (xs.map (Leaf.replace s)).map Leaf.skip := by
  simp [List.map_map, Function.comp_def, Leaf.replace_skip]

/-- A part that may be skipped. -/
theorem replace_skipIf (c : Prop) [Decidable c] (xs : List (Leaf α)) :
    (if c then xs.map Leaf.skip else xs).map (Leaf.replace s)
      = if c then (xs.map (Leaf.replace s)).map Leaf.skip else xs.map (Leaf.replace s) := by
  split
  · exact replace_skipAll s xs
  · rfl

theorem replace_underAll (params : List Parameter) (xs : List (Leaf α)) :
    (xs.map (Leaf.under params)).map (Leaf.replace s)
      = (xs.map (Leaf.replace s)).map (Leaf.under params) := by
  simp [List.map_map, Function.comp_def, Leaf.replace_under]

mutual

theorem Node.leaves_rebuild : (n : Node α) → (k : Nat) →
    (n.rebuild s k).1.leaves = n.leaves.map (Leaf.replace s)
  | .mk id kind ty payload, k => by
      have ih := Payload.leaves_rebuild kind payload
      cases payload with
      | constant v => rfl
      | parameter p =>
          simp only [Node.rebuild]
          cases hv : s.lookup p.id <;> simp [Node.leaves, Payload.leaves, Leaf.replace, hv] <;> rfl
      | binary l r m lifted toNull conversion =>
          cases conversion <;> exact ih (by simp) k
      | memberAccess target m => cases target <;> exact ih (by simp) k
      | call target m args => cases target <;> exact ih (by simp) k
      | _ => exact ih (by simp) k

theorem Payload.leaves_rebuild (kind : Kind) : (p : Payload α) → (∀ q, p ≠ .parameter q) →
    (k : Nat) → (p.rebuild s k).1.leaves kind = (p.leaves kind).map (Leaf.replace s)
  | .constant _, _, _ => rfl
  | .parameter p, h, _ => absurd rfl (h p)
  | .unary x _ _, _, k => x.leaves_rebuild k
  | .binary l r _ _ _ none, _, k => by
      simp only [Payload.leaves, List.map_append]
      rw [← l.leaves_rebuild k, ← r.leaves_rebuild (l.rebuild s k).2]
      rfl
  | .binary l r m lifted toNull (some c), _, k => by
      have hc := replace_skipIf s (¬kind = .coalesce) c.leaves
      rw [← c.leaves_rebuild (r.rebuild s (l.rebuild s k).2).2, ite_not, ite_not] at hc
      simp only [Payload.leaves, List.map_append, hc]
      rw [← l.leaves_rebuild k, ← r.leaves_rebuild (l.rebuild s k).2]
      rfl
  | .conditional t a b, _, k => by
      simp only [Payload.leaves, List.map_append]
      rw [← t.leaves_rebuild k, ← a.leaves_rebuild (t.rebuild s k).2, ← b.leaves_rebuild
        (a.rebuild s (t.rebuild s k).2).2]
      rfl
  | .memberAccess none _, _, _ => rfl
  | .memberAccess (some x) m, _, k => by
      rw [Payload.leaves, replace_skipIf, ← x.leaves_rebuild k]
      rfl
  | .call none _ args, _, k => Node.leaves_rebuildAll args k
  | .call (some x) m args, _, k => by
      simp only [Payload.leaves, List.map_append]
      rw [replace_skipIf, ← x.leaves_rebuild k, ← Node.leaves_rebuildAll args (x.rebuild s k).2]
      rfl
  | .new none args, _, k => by
      simp only [Payload.leaves]
      rw [replace_skipAll, ← Node.leaves_rebuildAll args k]
      rfl
  | .new (some _) args, _, k => Node.leaves_rebuildAll args k
  | .newArray items, _, k => Node.leaves_rebuildAll items k
  | .listInit x inits, _, k => by
      simp only [Payload.leaves, List.map_append]
      rw [← x.leaves_rebuild k, ← ElementInit.leaves_rebuildAll inits (x.rebuild s k).2]
      rfl
  | .memberInit x bindings, _, k => by
      simp only [Payload.leaves, List.map_append]
      rw [← x.leaves_rebuild k, ← MemberBinding.leaves_rebuildAll bindings (x.rebuild s k).2]
      rfl
  | .lambda l, _, k => l.leaves_rebuild k
  | .invoke x args, _, k => by
      simp only [Payload.leaves, List.map_append]
      rw [← x.leaves_rebuild k, ← Node.leaves_rebuildAll args (x.rebuild s k).2]
      rfl
  | .typeIs x _, _, k => x.leaves_rebuild k
  | .assign p x, _, k => by
      simp only [Payload.leaves, List.map_cons]
      rw [← x.leaves_rebuild k]
      rfl
  | .block items, _, k => Node.leaves_rebuildAll items k

/-- A rebuilt lambda declares what it declared before. -/
theorem Lambda.leaves_rebuild : (l : Lambda α) → (k : Nat) →
    (l.rebuild s k).1.leaves = l.leaves.map (Leaf.replace s)
  | .mk _ _ params body, k => by
      rw [Lambda.leaves, replace_underAll, ← body.leaves_rebuild k]
      rfl

theorem Node.leaves_rebuildAll : (ns : List (Node α)) → (k : Nat) →
    Node.leavesAll (Node.rebuildAll s ns k).1 = (Node.leavesAll ns).map (Leaf.replace s)
  | [], _ => rfl
  | n :: ns, k => by
      simp only [Node.leavesAll, List.map_append]
      rw [← n.leaves_rebuild k, ← Node.leaves_rebuildAll ns (n.rebuild s k).2]
      rfl

theorem ElementInit.leaves_rebuildAll : (inits : List (ElementInit α)) → (k : Nat) →
    ElementInit.leavesAll (ElementInit.rebuildAll s inits k).1
      = (ElementInit.leavesAll inits).map (Leaf.replace s)
  | [], _ => rfl
  | .mk _ args :: rest, k => by
      simp only [ElementInit.leavesAll, List.map_append]
      rw [← Node.leaves_rebuildAll args k,
        ← ElementInit.leaves_rebuildAll rest (Node.rebuildAll s args k).2]
      rfl

theorem MemberBinding.leaves_rebuildAll : (bs : List (MemberBinding α)) → (k : Nat) →
    MemberBinding.leavesAll (MemberBinding.rebuildAll s bs k).1
      = (MemberBinding.leavesAll bs).map (Leaf.replace s)
  | [], _ => rfl
  | .assign _ x :: rest, k => by
      simp only [MemberBinding.leavesAll, List.map_append]
      rw [← x.leaves_rebuild k, ← MemberBinding.leaves_rebuildAll rest (x.rebuild s k).2]
      rfl
  | .bind _ nested :: rest, k => by
      simp only [MemberBinding.leavesAll, List.map_append]
      rw [← MemberBinding.leaves_rebuildAll nested k,
        ← MemberBinding.leaves_rebuildAll rest (MemberBinding.rebuildAll s nested k).2]
      rfl
  | .list _ inits :: rest, k => by
      simp only [MemberBinding.leavesAll, List.map_append]
      rw [← ElementInit.leaves_rebuildAll inits k,
        ← MemberBinding.leaves_rebuildAll rest (ElementInit.rebuildAll s inits k).2]
      rfl

end

theorem Leaf.replace_nil (x : Leaf α) : x.replace [] = x := by
  cases x with
  | constant v => rfl
  | use u => cases ht : u.isTarget <;> simp [replace, ht, List.lookup_nil]

/-- A substitution changes a tree leaf by leaf. -/
theorem Node.leaves_substitute (n : Node α) (k : Nat) :
    (n.substitute s k).1.leaves = n.leaves.map (Leaf.replace s) := by
  unfold Node.substitute
  cases s with
  | nil =>
      have hsame : Leaf.replace ([] : Substitution α) = fun x => x := funext Leaf.replace_nil
      rw [hsame, List.map_id']
      rfl
  | cons a s => exact n.leaves_rebuild (a :: s) k

end Substitution

end ExprTree
