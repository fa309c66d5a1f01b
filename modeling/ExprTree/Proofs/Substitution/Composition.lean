import ExprTree.Proofs.Snapshot

set_option autoImplicit false

/-! # Substituting twice

Two substitutions, one after the other, do what one does that maps the parameters of both; where
both map a parameter, the first one has replaced it before the second one sees it. What is rebuilt
gets new identities each time, so the two results are compared up to these (`Node.EqUpToIds`).

The laws of substitution follow (`substitutions_compose`): it is idempotent, substitutions for
different parameters commute, and a quoted tree does not change any more when it is quoted again.
-/

namespace ExprTree

variable {α : Type}

/-! ## Trees without identities -/

mutual

/-- The tree, with all nodes and lambdas numbered 0. -/
def Node.unnumbered : Node α → Node α
  | .mk _ kind ty payload => .mk 0 kind ty (Payload.unnumbered payload)

/-- The content of a node, with all nodes and lambdas numbered 0. -/
def Payload.unnumbered : Payload α → Payload α
  | .constant v => .constant v
  | .parameter p => .parameter p
  | .unary x m lifted => .unary (Node.unnumbered x) m lifted
  | .binary l r m lifted toNull none =>
      .binary (Node.unnumbered l) (Node.unnumbered r) m lifted toNull none
  | .binary l r m lifted toNull (some c) =>
      .binary (Node.unnumbered l) (Node.unnumbered r) m lifted toNull (some (Lambda.unnumbered c))
  | .conditional t a b =>
      .conditional (Node.unnumbered t) (Node.unnumbered a) (Node.unnumbered b)
  | .memberAccess none m => .memberAccess none m
  | .memberAccess (some x) m => .memberAccess (some (Node.unnumbered x)) m
  | .call none m args => .call none m (Node.unnumberedAll args)
  | .call (some x) m args => .call (some (Node.unnumbered x)) m (Node.unnumberedAll args)
  | .new c args => .new c (Node.unnumberedAll args)
  | .newArray items => .newArray (Node.unnumberedAll items)
  | .listInit x inits => .listInit (Node.unnumbered x) (ElementInit.unnumberedAll inits)
  | .memberInit x bindings =>
      .memberInit (Node.unnumbered x) (MemberBinding.unnumberedAll bindings)
  | .lambda l => .lambda (Lambda.unnumbered l)
  | .invoke x args => .invoke (Node.unnumbered x) (Node.unnumberedAll args)
  | .typeIs x ty => .typeIs (Node.unnumbered x) ty
  | .assign p x => .assign p (Node.unnumbered x)
  | .block items => .block (Node.unnumberedAll items)

/-- The lambda, numbered 0. Its parameters keep their numbers. -/
def Lambda.unnumbered : Lambda α → Lambda α
  | .mk _ name params body => .mk 0 name params (Node.unnumbered body)

/-- Several nodes without their numbers. -/
def Node.unnumberedAll : List (Node α) → List (Node α)
  | [] => []
  | n :: ns => Node.unnumbered n :: Node.unnumberedAll ns

/-- List initialisers without the numbers in them. -/
def ElementInit.unnumberedAll : List (ElementInit α) → List (ElementInit α)
  | [] => []
  | .mk add args :: rest => .mk add (Node.unnumberedAll args) :: ElementInit.unnumberedAll rest

/-- Bindings without the numbers in them. -/
def MemberBinding.unnumberedAll : List (MemberBinding α) → List (MemberBinding α)
  | [] => []
  | .assign m x :: rest => .assign m (Node.unnumbered x) :: MemberBinding.unnumberedAll rest
  | .bind m nested :: rest =>
      .bind m (MemberBinding.unnumberedAll nested) :: MemberBinding.unnumberedAll rest
  | .list m inits :: rest =>
      .list m (ElementInit.unnumberedAll inits) :: MemberBinding.unnumberedAll rest

end

/-- The numbers of the lambdas in a tree, in the order of a walk. -/
def Node.lambdaNumbers (n : Node α) : List Nat := (n.walk.filterMap Event.entered?).map (·.id)

/-- The same tree, up to the identities of nodes and lambdas: the trees agree in everything else,
and one lambda stands in two places of the first tree exactly if one lambda stands in these two
places of the second one. -/
structure Node.EqUpToIds (a b : Node α) : Prop where
  unnumbered : a.unnumbered = b.unnumbered
  repeats : ∀ i j : Nat, a.lambdaNumbers[i]? = a.lambdaNumbers[j]? ↔
    b.lambdaNumbers[i]? = b.lambdaNumbers[j]?

namespace Node.EqUpToIds

variable {a b c : Node α}

theorem refl (a : Node α) : a.EqUpToIds a := ⟨rfl, fun _ _ => Iff.rfl⟩

theorem symm (h : a.EqUpToIds b) : b.EqUpToIds a :=
  ⟨h.unnumbered.symm, fun i j => (h.repeats i j).symm⟩

theorem trans (h : a.EqUpToIds b) (h' : b.EqUpToIds c) : a.EqUpToIds c :=
  ⟨h.unnumbered.trans h'.unnumbered, fun i j => (h.repeats i j).trans (h'.repeats i j)⟩

/-- In trees without sharing no lambda stands in two places. -/
theorem ofNodup (h : a.unnumbered = b.unnumbered)
    (hlen : a.lambdaNumbers.length = b.lambdaNumbers.length) (ha : a.lambdaNumbers.Nodup)
    (hb : b.lambdaNumbers.Nodup) : a.EqUpToIds b := by
  refine ⟨h, fun i j => ?_⟩
  by_cases hi : i < a.lambdaNumbers.length
  · rw [List.getElem?_inj hi ha, List.getElem?_inj (hlen ▸ hi) hb]
  · -- there is no lambda at the first place
    have hnone : a.lambdaNumbers[i]? = none := List.getElem?_eq_none (Nat.not_lt.mp hi)
    have hnone' : b.lambdaNumbers[i]? = none :=
      List.getElem?_eq_none (hlen ▸ Nat.not_lt.mp hi)
    rw [hnone, hnone', eq_comm, List.getElem?_eq_none_iff, eq_comm, List.getElem?_eq_none_iff, hlen]

end Node.EqUpToIds

/-! ## Rebuilding twice -/

section Rebuild

variable {s s₁ s₂ : Substitution α}

mutual

/-- A read that is left by the first substitution is there for the second one; everything else is
rebuilt in the same way, with whatever numbers. -/
theorem Node.unnumbered_rebuild_rebuild
    (hs : ∀ p, s.lookup p = (s₁.lookup p).or (s₂.lookup p)) : (n : Node α) → (k m j : Nat) →
    ((n.rebuild s₁ k).1.rebuild s₂ m).1.unnumbered = (n.rebuild s j).1.unnumbered
  | .mk id kind ty payload, k, m, j => by
      have ih := payload.unnumbered_rebuild_rebuild hs k m j
      cases payload with
      | constant v => rfl
      | parameter p =>
          have hp := hs p.id
          simp only [Node.rebuild]
          cases h₁ : s₁.lookup p.id with
          | some v =>
              rw [h₁, Option.some_or] at hp
              rw [hp]
              rfl
          | none =>
              rw [h₁, Option.none_or] at hp
              rw [hp]
              show (Node.rebuild s₂ (.mk id kind ty (.parameter p)) m).1.unnumbered = _
              rw [Node.rebuild]
              cases s₂.lookup p.id <;> rfl
      | binary l r method lifted toNull conversion =>
          cases conversion <;> exact congrArg (Node.mk 0 kind ty) ih
      | memberAccess target member =>
          cases target <;> exact congrArg (Node.mk 0 kind ty) ih
      | call target method args =>
          cases target <;> exact congrArg (Node.mk 0 kind ty) ih
      | _ => exact congrArg (Node.mk 0 kind ty) ih

theorem Payload.unnumbered_rebuild_rebuild
    (hs : ∀ p, s.lookup p = (s₁.lookup p).or (s₂.lookup p)) : (p : Payload α) → (k m j : Nat) →
    ((p.rebuild s₁ k).1.rebuild s₂ m).1.unnumbered = (p.rebuild s j).1.unnumbered
  | .constant _, _, _, _ | .parameter _, _, _, _ | .memberAccess none _, _, _, _ => rfl
  | .unary x method lifted, k, m, j =>
      congrArg (Payload.unary · method lifted) (x.unnumbered_rebuild_rebuild hs k m j)
  | .binary l r method lifted toNull none, k, m, j =>
      congrArg₂ (Payload.binary · · method lifted toNull none)
        (l.unnumbered_rebuild_rebuild hs k m j) (r.unnumbered_rebuild_rebuild hs _ _ _)
  | .binary l r method lifted toNull (some c), k, m, j => by
      show Payload.binary _ _ _ _ _ (some _) = Payload.binary _ _ _ _ _ (some _)
      rw [l.unnumbered_rebuild_rebuild hs k m j, r.unnumbered_rebuild_rebuild hs _ _ _,
        c.unnumbered_rebuild_rebuild hs _ _ _]
  | .conditional t a b, k, m, j => by
      show Payload.conditional _ _ _ = Payload.conditional _ _ _
      rw [t.unnumbered_rebuild_rebuild hs k m j, a.unnumbered_rebuild_rebuild hs _ _ _,
        b.unnumbered_rebuild_rebuild hs _ _ _]
  | .memberAccess (some x) member, k, m, j =>
      congrArg (fun x => Payload.memberAccess (some x) member)
        (x.unnumbered_rebuild_rebuild hs k m j)
  | .call none method args, k, m, j =>
      congrArg (Payload.call none method) (Node.unnumbered_rebuildAll_rebuildAll hs args k m j)
  | .call (some x) method args, k, m, j =>
      congrArg₂ (fun x args => Payload.call (some x) method args)
        (x.unnumbered_rebuild_rebuild hs k m j)
        (Node.unnumbered_rebuildAll_rebuildAll hs args _ _ _)
  | .new constructor args, k, m, j =>
      congrArg (Payload.new constructor) (Node.unnumbered_rebuildAll_rebuildAll hs args k m j)
  | .newArray items, k, m, j =>
      congrArg Payload.newArray (Node.unnumbered_rebuildAll_rebuildAll hs items k m j)
  | .listInit x inits, k, m, j =>
      congrArg₂ Payload.listInit (x.unnumbered_rebuild_rebuild hs k m j)
        (ElementInit.unnumbered_rebuildAll_rebuildAll hs inits _ _ _)
  | .memberInit x bindings, k, m, j =>
      congrArg₂ Payload.memberInit (x.unnumbered_rebuild_rebuild hs k m j)
        (MemberBinding.unnumbered_rebuildAll_rebuildAll hs bindings _ _ _)
  | .lambda l, k, m, j => congrArg Payload.lambda (l.unnumbered_rebuild_rebuild hs k m j)
  | .invoke x args, k, m, j =>
      congrArg₂ Payload.invoke (x.unnumbered_rebuild_rebuild hs k m j)
        (Node.unnumbered_rebuildAll_rebuildAll hs args _ _ _)
  | .typeIs x ty, k, m, j => congrArg (Payload.typeIs · ty) (x.unnumbered_rebuild_rebuild hs k m j)
  | .assign p x, k, m, j => congrArg (Payload.assign p) (x.unnumbered_rebuild_rebuild hs k m j)
  | .block items, k, m, j =>
      congrArg Payload.block (Node.unnumbered_rebuildAll_rebuildAll hs items k m j)

/-- A lambda that was rebuilt has no name any more, so it makes no difference to do it twice. -/
theorem Lambda.unnumbered_rebuild_rebuild
    (hs : ∀ p, s.lookup p = (s₁.lookup p).or (s₂.lookup p)) : (l : Lambda α) → (k m j : Nat) →
    ((l.rebuild s₁ k).1.rebuild s₂ m).1.unnumbered = (l.rebuild s j).1.unnumbered
  | .mk _ _ params body, k, m, j =>
      congrArg (Lambda.mk 0 none params) (body.unnumbered_rebuild_rebuild hs k m j)

theorem Node.unnumbered_rebuildAll_rebuildAll
    (hs : ∀ p, s.lookup p = (s₁.lookup p).or (s₂.lookup p)) : (ns : List (Node α)) →
    (k m j : Nat) →
    Node.unnumberedAll (Node.rebuildAll s₂ (Node.rebuildAll s₁ ns k).1 m).1
      = Node.unnumberedAll (Node.rebuildAll s ns j).1
  | [], _, _, _ => rfl
  | n :: ns, k, m, j =>
      congrArg₂ List.cons (n.unnumbered_rebuild_rebuild hs k m j)
        (Node.unnumbered_rebuildAll_rebuildAll hs ns _ _ _)

theorem ElementInit.unnumbered_rebuildAll_rebuildAll
    (hs : ∀ p, s.lookup p = (s₁.lookup p).or (s₂.lookup p)) :
    (inits : List (ElementInit α)) →
    (k m j : Nat) →
    ElementInit.unnumberedAll (ElementInit.rebuildAll s₂ (ElementInit.rebuildAll s₁ inits k).1 m).1
      = ElementInit.unnumberedAll (ElementInit.rebuildAll s inits j).1
  | [], _, _, _ => rfl
  | .mk add args :: rest, k, m, j =>
      congrArg₂ (ElementInit.mk add · :: ·) (Node.unnumbered_rebuildAll_rebuildAll hs args k m j)
        (ElementInit.unnumbered_rebuildAll_rebuildAll hs rest _ _ _)

theorem MemberBinding.unnumbered_rebuildAll_rebuildAll
    (hs : ∀ p, s.lookup p = (s₁.lookup p).or (s₂.lookup p)) :
    (bindings : List (MemberBinding α)) →
    (k m j : Nat) →
    MemberBinding.unnumberedAll
        (MemberBinding.rebuildAll s₂ (MemberBinding.rebuildAll s₁ bindings k).1 m).1
      = MemberBinding.unnumberedAll (MemberBinding.rebuildAll s bindings j).1
  | [], _, _, _ => rfl
  | .assign member x :: rest, k, m, j =>
      congrArg₂ (MemberBinding.assign member · :: ·) (x.unnumbered_rebuild_rebuild hs k m j)
        (MemberBinding.unnumbered_rebuildAll_rebuildAll hs rest _ _ _)
  | .bind member nested :: rest, k, m, j =>
      congrArg₂ (MemberBinding.bind member · :: ·)
        (MemberBinding.unnumbered_rebuildAll_rebuildAll hs nested k m j)
        (MemberBinding.unnumbered_rebuildAll_rebuildAll hs rest _ _ _)
  | .list member inits :: rest, k, m, j =>
      congrArg₂ (MemberBinding.list member · :: ·)
        (ElementInit.unnumbered_rebuildAll_rebuildAll hs inits k m j)
        (MemberBinding.unnumbered_rebuildAll_rebuildAll hs rest _ _ _)

end

/-- The numbers of the lambdas in a rebuilt tree are all different. -/
theorem Node.nodup_lambdaNumbers_rebuild (s : Substitution α) (n : Node α) (k : Nat) :
    (n.rebuild s k).1.lambdaNumbers.Nodup := (n.rebuild_rebuilt s k).distinct

theorem Node.length_lambdaNumbers_rebuild (s : Substitution α) (n : Node α) (k : Nat) :
    (n.rebuild s k).1.lambdaNumbers.length = n.lambdaNumbers.length := by
  rw [lambdaNumbers, lambdaNumbers, List.length_map, List.length_map,
    (n.rebuild_rebuilt s k).count]

theorem Node.rebuild_rebuild_eqUpToIds (hs : ∀ p, s.lookup p = (s₁.lookup p).or (s₂.lookup p))
    (n : Node α) (k m j : Nat) :
    ((n.rebuild s₁ k).1.rebuild s₂ m).1.EqUpToIds (n.rebuild s j).1 := by
  refine .ofNodup (n.unnumbered_rebuild_rebuild hs k m j) ?_
    (Node.nodup_lambdaNumbers_rebuild ..) (Node.nodup_lambdaNumbers_rebuild ..)
  rw [Node.length_lambdaNumbers_rebuild, Node.length_lambdaNumbers_rebuild,
    Node.length_lambdaNumbers_rebuild]

/-- What is rebuilt depends neither on the numbers it gets nor on how the values are listed. -/
theorem Node.rebuild_eqUpToIds {s' : Substitution α} (hs : ∀ p, s.lookup p = s'.lookup p)
    (n : Node α) (k j : Nat) : (n.rebuild s k).1.EqUpToIds (n.rebuild s' j).1 := by
  have htwice : ((n.rebuild s k).1.rebuild s k).1.EqUpToIds (n.rebuild s k).1 :=
    n.rebuild_rebuild_eqUpToIds (fun p => (Option.or_self ..).symm) k k k
  refine htwice.symm.trans (n.rebuild_rebuild_eqUpToIds (fun p => ?_) k k j)
  rw [← hs p, Option.or_self]

end Rebuild

/-! ## Substituting twice -/

section Substitute

variable {s s₁ s₂ : Substitution α}

/-- A substitution that maps something is not empty. -/
theorem Substitution.eq_nil_of_lookup (h : ∀ p, s.lookup p = none) : s = [] := by
  cases s with
  | nil => rfl
  | cons a s =>
      have ha := h a.1
      rw [List.lookup_cons, beq_self_eq_true] at ha
      cases ha

theorem Node.substitute_of_ne_nil (hs : s ≠ []) (n : Node α) (k : Nat) :
    n.substitute s k = n.rebuild s k := by
  rw [Node.substitute, if_neg (by simpa using hs)]

/-- **Two substitutions are one.** With nothing to replace a tree is not rebuilt, so the empty
substitutions are cases of their own. -/
theorem Node.substitute_substitute (hs : ∀ p, s.lookup p = (s₁.lookup p).or (s₂.lookup p))
    (n : Node α) (k m j : Nat) :
    ((n.substitute s₁ k).1.substitute s₂ m).1.EqUpToIds (n.substitute s j).1 := by
  have hnil : s = [] → s₁ = [] ∧ s₂ = [] := by
    rintro rfl
    have hnone : ∀ p, s₁.lookup p = none ∧ s₂.lookup p = none := fun p =>
      Option.or_eq_none_iff.mp (hs p).symm
    exact ⟨Substitution.eq_nil_of_lookup fun p => (hnone p).1,
      Substitution.eq_nil_of_lookup fun p => (hnone p).2⟩
  by_cases h : s = []
  · obtain ⟨rfl, rfl⟩ := hnil h
    subst h
    exact .refl n
  · rw [n.substitute_of_ne_nil h]
    by_cases h₁ : s₁ = []
    · -- only the second one does something
      subst h₁
      have hlookup : ∀ p, s₂.lookup p = s.lookup p := fun p => (hs p).symm
      have h₂ : s₂ ≠ [] := by
        rintro rfl
        exact h (Substitution.eq_nil_of_lookup fun p => (hlookup p).symm)
      rw [Node.substitute_of_ne_nil h₂]
      exact n.rebuild_eqUpToIds hlookup m j
    · rw [n.substitute_of_ne_nil h₁]
      by_cases h₂ : s₂ = []
      · subst h₂
        exact n.rebuild_eqUpToIds (fun p => by rw [hs p, List.lookup_nil, Option.or_none]) k j
      · rw [Node.substitute_of_ne_nil h₂]
        exact n.rebuild_rebuild_eqUpToIds hs k m j

end Substitute

/-! ## Isolating twice -/

section Isolate

variable {w w' w₁ : World} {scope : Scope} {own : Option Nat} {t t₁ : Tree}

/-- An isolated tree has no free parameters that the tree did not have. -/
theorem World.hasFree_of_isolate (h : w.isolate scope own t = .ok (t₁, w₁)) {p : Nat}
    (hp : t₁.hasFree p = true) : t.hasFree p = true := by
  obtain ⟨u, hu, -, hb, hid⟩ := (World.hasFree_isolate h).mp hp
  exact Node.hasFree_iff.mpr ⟨u, hu, hb, hid⟩

/-- Isolating an isolated tree replaces nothing: the parameters that are still free are assigned
only, since all reads of them are gone. -/
theorem World.isolate_isolate (h : w.isolate scope own t = .ok (t₁, w₁))
    (hcurrent : ∀ p, (w.current? scope own p).isSome = true →
      (w'.current? scope own p).isSome = true) :
    ∃ t₂ w₂, w'.isolate scope own t₁ = .ok (t₂, w₂) ∧ t₂.EqUpToIds t₁ := by
  obtain ⟨values, hvalues, ht₁⟩ := World.isolate_eq_ok h
  obtain ⟨values', hvalues'⟩ : ∃ values', w'.captureAll? scope own t₁.freeParameters
      = some values' := by
    refine World.captureAll?_of_current? fun p hp => hcurrent p.id ?_
    have hfree : t₁.hasFree p.id = true := List.any_eq_true.mpr ⟨p, hp, beq_self_eq_true _⟩
    exact World.current?_of_isolate h (World.hasFree_of_isolate h hfree)
  have hlookup : ∀ p, values.lookup p = (values.lookup p).or (values'.lookup p) := by
    intro p
    cases hv : values.lookup p with
    | some v => rfl
    | none =>
        -- a parameter without a value is not free, neither before nor afterwards
        have hnot : t₁.hasFree p = false := by
          refine Bool.eq_false_iff.mpr fun hp => ?_
          have hfree := World.hasFree_of_isolate h hp
          have hsome := World.current?_of_isolate h hfree
          rw [World.lookup_captured hvalues, if_pos hfree] at hv
          rw [hv] at hsome
          cases hsome
        rw [World.lookup_captured hvalues', if_neg (Bool.eq_false_iff.mp hnot)]
        rfl
  obtain ⟨w₂, hw₂⟩ := World.isolate_of_captureAll? hvalues'
  refine ⟨_, w₂, hw₂, ?_⟩
  rw [ht₁]
  exact t.substitute_substitute hlookup _ _ _

end Isolate

/-- **The laws of substitution**, up to the identities of what is rebuilt. Two substitutions are
one, for the parameters of both, where the first one takes precedence. So a substitution is
idempotent, and substitutions for different parameters commute. A tree that was isolated can be
isolated again in the same scope, as long as the captured cells exist; this gives the same tree,
whatever the cells hold by then. -/
theorem substitutions_compose (t : Tree) :
    (∀ s₁ s₂ s : Substitution Value, (∀ p, s.lookup p = (s₁.lookup p).or (s₂.lookup p)) →
      ∀ k m j, ((t.substitute s₁ k).1.substitute s₂ m).1.EqUpToIds (t.substitute s j).1) ∧
    (∀ (s : Substitution Value) (k m j : Nat),
      ((t.substitute s k).1.substitute s m).1.EqUpToIds (t.substitute s j).1) ∧
    (∀ s₁ s₂ : Substitution Value, (∀ p, s₁.lookup p = none ∨ s₂.lookup p = none) →
      ∀ k m k' m', ((t.substitute s₁ k).1.substitute s₂ m).1.EqUpToIds
        ((t.substitute s₂ k').1.substitute s₁ m').1) ∧
    ∀ (w w₁ w' : World) (scope : Scope) (own : Option Nat) (t₁ : Tree),
      w.isolate scope own t = .ok (t₁, w₁) →
      (∀ p, (w.current? scope own p).isSome = true → (w'.current? scope own p).isSome = true) →
      ∃ t₂ w₂, w'.isolate scope own t₁ = .ok (t₂, w₂) ∧ t₂.EqUpToIds t₁ := by
  refine ⟨fun s₁ s₂ s hs k m j => t.substitute_substitute hs k m j, fun s k m j => ?_,
    fun s₁ s₂ hdisjoint k m k' m' => ?_,
    fun w w₁ w' scope own t₁ h hcurrent => World.isolate_isolate h hcurrent⟩
  · exact t.substitute_substitute (fun p => (Option.or_self ..).symm) k m j
  · have hunion : ((t.substitute s₁ k).1.substitute s₂ m).1.EqUpToIds
        (t.substitute (s₁ ++ s₂) 0).1 :=
      t.substitute_substitute (fun p => List.lookup_append) k m 0
    refine hunion.trans (Node.EqUpToIds.symm (t.substitute_substitute (fun p => ?_) k' m' 0))
    rw [List.lookup_append]
    rcases hdisjoint p with hnone | hnone
    · rw [hnone, Option.none_or, Option.or_none]
    · rw [hnone, Option.none_or, Option.or_none]

/-- `{ x := x + 1; y ↦ x + y }`: the parameter `x` stays free when it is replaced. -/
def Node.writeOuter : Tree :=
  let x : Parameter := ⟨0, "x", .int .i8⟩
  let y : Parameter := ⟨1, "y", .int .i8⟩
  .block 0 [.assign 1 x (.binary 2 .add (.parameter 3 x) (.constant 4 (.ofInt .i8 1) (.int .i8))),
    .ofLambda 5 (.mk 6 none [y] (.binary 7 .add (.parameter 8 x) (.parameter 9 y)))]

theorem World.current?_isSome_setCell? {w w' : World} {c k : Nat} {v : Value}
    (h : w.setCell? c k v = some w') {scope : Scope} {own : Option Nat} {p : Nat}
    (hp : (w.current? scope own p).isSome = true) :
    (w'.current? scope own p).isSome = true := by
  obtain ⟨old, hold⟩ : ∃ old, w.cell? c k = some old := by
    rw [World.setCell?] at h
    split at h
    case isTrue hcell => exact Option.isSome_iff_exists.mp hcell
    case isFalse => cases h
  obtain ⟨w'', hset, hw⟩ := World.setCell?_eq_some hold v
  obtain rfl : w'' = w' := Option.some.inj (hset.symm.trans h)
  rw [World.current?] at hp ⊢
  cases hfind : scope.find? own p with
  | none =>
      rw [hfind] at hp
      cases hp
  | some cell =>
      obtain ⟨c', k'⟩ := cell
      rw [hfind] at hp
      show (w''.cell? c' k').isSome = true
      rw [hw.cells]
      split
      · rfl
      · exact hp

/-- The tree is isolated where `x` holds 5, and again after 7 was written to it; the second time
`x` is still free, so the tree is rebuilt. Values for `x` and `y` may come in either order. -/
theorem substitutions_compose_written :
    (∃ p t₁ w₁ w' t₂ w₂, Program.compile .empty {} (.quoting .writeOuter) = .ok p ∧
      World.holdingFive.isolate (.root p 0) (some 0) .writeOuter = .ok (t₁, w₁) ∧
      w₁.setCell? 0 0 (.ofInt .i8 7) = some w' ∧ t₁.hasFree 0 = true ∧
      w'.isolate (.root p 0) (some 0) t₁ = .ok (t₂, w₂) ∧ t₂.EqUpToIds t₁) ∧
    (((Node.writeOuter.substitute [(0, .ofInt .i8 5)] 10).1.substitute
        [(1, .ofInt .i8 6)] 20).1.EqUpToIds
      ((Node.writeOuter.substitute [(1, .ofInt .i8 6)] 30).1.substitute
        [(0, .ofInt .i8 5)] 40).1) := by
  obtain ⟨-, -, hcomm, hisolate⟩ := substitutions_compose Node.writeOuter
  constructor
  · obtain ⟨p, t₁, w₁, w', hp, h₁, hset, hfree, hsame⟩ : ∃ p t₁ w₁ w',
        Program.compile .empty {} (.quoting .writeOuter) = .ok p ∧
        World.holdingFive.isolate (.root p 0) (some 0) .writeOuter = .ok (t₁, w₁) ∧
        w₁.setCell? 0 0 (.ofInt .i8 7) = some w' ∧ t₁.hasFree 0 = true ∧
        ∀ q, World.holdingFive.current? (.root p 0) (some 0) q
          = w₁.current? (.root p 0) (some 0) q :=
      ⟨_, _, _, _, rfl, rfl, rfl, rfl, fun _ => rfl⟩
    obtain ⟨t₂, w₂, h₂, heq⟩ := hisolate _ w₁ w' _ _ t₁ h₁ fun q hq =>
      World.current?_isSome_setCell? hset (hsame q ▸ hq)
    exact ⟨p, t₁, w₁, w', t₂, w₂, hp, h₁, hset, hfree, h₂, heq⟩
  · refine hcomm _ _ (fun p => ?_) 10 20 30 40
    cases p with
    | zero => exact .inr rfl
    | succ p => exact .inl rfl

end ExprTree
