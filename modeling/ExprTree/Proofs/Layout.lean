import ExprTree.Proofs.Representation

set_option autoImplicit false

/-! # The layout of a compiled program

Emission hands out positions as it walks a tree: a unit for every lambda, a place in the pool for
every constant that code cannot carry and for every quoted tree, and slots for temporaries.
`Node.emittedParts` lists what a tree takes from these tables, in order, and `Code.references` lists
what a piece of code refers to. Both are read off the tree and the code alone.

The main result is `Node.emit_lays`: the tables grow by exactly the listed parts, every reference of
the code is valid at the end, and every new unit was emitted from the lambda it is listed for, with
the unit of the lambda around it as its parent. `Program.unitOf` draws the conclusion for all units
of a program.
-/

namespace ExprTree

/-! ## What a tree takes from the tables -/

/-- A lambda for which a unit is made, and the lambdas around it, innermost first. -/
structure LambdaSite where
  lambda : Lambda Value
  outer : List (Lambda Value)

/-- The lambdas around what stands in the body of the lambda. -/
def LambdaSite.around (site : LambdaSite) : List (Lambda Value) := site.lambda :: site.outer

/-- A part of a tree that is emitted and takes a position in a table, or could take one. -/
inductive EmittedPart
  /-- A lambda node. -/
  | closure (site : LambdaSite)
  /-- The conversion of a coalescing node. -/
  | conversion (site : LambdaSite)
  | constant (v : Value)
  | quote (tree : Tree)

namespace EmittedPart

/-- The lambda of a part that gets a unit. -/
def site? : EmittedPart → Option LambdaSite
  | .closure site | .conversion site => some site
  | .constant _ | .quote _ => none

/-- What a part adds to the pool. -/
def pooled? : EmittedPart → Option Value
  | .closure _ | .conversion _ => none
  | .constant v => if v.isImmediate then none else some v
  | .quote tree => some (.expression tree)

end EmittedPart

/-- The lambdas that get a unit, in order. -/
def sitesOf (parts : List EmittedPart) : List LambdaSite := parts.filterMap EmittedPart.site?

/-- What is added to the pool, in order. -/
def pooledOf (parts : List EmittedPart) : List Value := parts.filterMap EmittedPart.pooled?

@[simp] theorem sitesOf_append (ps qs : List EmittedPart) :
    sitesOf (ps ++ qs) = sitesOf ps ++ sitesOf qs := List.filterMap_append

@[simp] theorem pooledOf_append (ps qs : List EmittedPart) :
    pooledOf (ps ++ qs) = pooledOf ps ++ pooledOf qs := List.filterMap_append

mutual

/-- The emitted parts of a node that stands inside the lambdas `around`. -/
def Node.emittedParts (around : List (Lambda Value)) : Tree → List EmittedPart
  | .mk _ kind _ payload => Payload.emittedParts around kind payload

/-- The emitted parts of what a node of that kind holds. Not emitted are a quoted tree, the target
of a static member or method, the arguments of a default value, and a conversion where nothing is
coalesced. -/
def Payload.emittedParts (around : List (Lambda Value)) (kind : Kind) :
    Payload Value → List EmittedPart
  | .constant v => [.constant v]
  | .parameter _ => []
  | .unary x _ _ => if kind = .quote then [.quote x] else Node.emittedParts around x
  | .binary l r _ _ _ none => Node.emittedParts around l ++ Node.emittedParts around r
  | .binary l r _ _ _ (some c) =>
      Node.emittedParts around l ++ (Node.emittedParts around r ++
        if kind = .coalesce then .conversion ⟨c, around⟩ :: Lambda.emittedParts around c else [])
  | .conditional t a b =>
      Node.emittedParts around t ++ (Node.emittedParts around a ++ Node.emittedParts around b)
  | .memberAccess none _ => []
  | .memberAccess (some x) m => if m.isStatic then [] else Node.emittedParts around x
  | .call none _ args => Node.emittedPartsAll around args
  | .call (some x) m args =>
      (if m.isStatic then [] else Node.emittedParts around x) ++ Node.emittedPartsAll around args
  | .new none _ => []
  | .new (some _) args => Node.emittedPartsAll around args
  | .newArray items => Node.emittedPartsAll around items
  | .listInit x inits => Node.emittedParts around x ++ ElementInit.emittedPartsAll around inits
  | .memberInit x bindings =>
      Node.emittedParts around x ++ MemberBinding.emittedPartsAll around bindings
  | .lambda l => .closure ⟨l, around⟩ :: Lambda.emittedParts around l
  | .invoke x args => Node.emittedParts around x ++ Node.emittedPartsAll around args
  | .typeIs x _ => Node.emittedParts around x
  | .assign _ x => Node.emittedParts around x
  | .block items => Node.emittedPartsAll around items

/-- The emitted parts inside a lambda. -/
def Lambda.emittedParts (outer : List (Lambda Value)) : Lambda Value → List EmittedPart
  | .mk id name params body => Node.emittedParts (.mk id name params body :: outer) body

/-- The emitted parts of several nodes in order. -/
def Node.emittedPartsAll (around : List (Lambda Value)) : List Tree → List EmittedPart
  | [] => []
  | n :: ns => Node.emittedParts around n ++ Node.emittedPartsAll around ns

/-- The emitted parts of list initialisers in order. -/
def ElementInit.emittedPartsAll (around : List (Lambda Value)) :
    List (ElementInit Value) → List EmittedPart
  | [] => []
  | .mk _ args :: rest =>
      Node.emittedPartsAll around args ++ ElementInit.emittedPartsAll around rest

/-- The emitted parts of bindings in order. -/
def MemberBinding.emittedPartsAll (around : List (Lambda Value)) :
    List (MemberBinding Value) → List EmittedPart
  | [] => []
  | .assign _ x :: rest =>
      Node.emittedParts around x ++ MemberBinding.emittedPartsAll around rest
  | .bind _ nested :: rest =>
      MemberBinding.emittedPartsAll around nested ++ MemberBinding.emittedPartsAll around rest
  | .list _ inits :: rest =>
      ElementInit.emittedPartsAll around inits ++ MemberBinding.emittedPartsAll around rest

end

/-- The lambdas of a root lambda that get a unit, the root first, in the order of their units. -/
def Lambda.sites (root : Lambda Value) : List LambdaSite :=
  ⟨root, []⟩ :: sitesOf (root.emittedParts [])

theorem Lambda.emittedParts_eq (l : Lambda Value) (outer : List (Lambda Value)) :
    l.emittedParts outer = l.body.emittedParts (l :: outer) := by
  cases l
  rfl

/-! ### Listed lambdas are entered by a walk -/

theorem Lambda.enter_self_mem_walk (l : Lambda Value) : .enter l ∈ l.walk := by
  cases l
  exact Lambda.enter_mem_walk.mpr (.inl rfl)

/-- A listed lambda is one that the walk over `es` enters. -/
def SitesIn (parts : List EmittedPart) (es : List (Event Value)) : Prop :=
  ∀ site ∈ sitesOf parts, .enter site.lambda ∈ es

namespace SitesIn

variable {ps qs : List EmittedPart} {es es' : List (Event Value)}

theorem nil (es : List (Event Value)) : SitesIn [] es := by simp [SitesIn, sitesOf]

theorem append (h : SitesIn ps es) (h' : SitesIn qs es') : SitesIn (ps ++ qs) (es ++ es') := by
  intro site hsite
  rw [sitesOf_append] at hsite
  rcases List.mem_append.mp hsite with hsite | hsite
  · exact List.mem_append_left _ (h site hsite)
  · exact List.mem_append_right _ (h' site hsite)

theorem skip (h : SitesIn ps es) (es' : List (Event Value)) : SitesIn ps (es' ++ es) :=
  fun site hsite => List.mem_append_right _ (h site hsite)

/-- A lambda and what stands in it. -/
theorem lambda {l : Lambda Value} {part : EmittedPart} {outer : List (Lambda Value)}
    (hpart : part.site? = some ⟨l, outer⟩) (h : SitesIn ps l.walk) :
    SitesIn (part :: ps) l.walk := by
  intro site hsite
  simp only [sitesOf, List.filterMap_cons, hpart, List.mem_cons] at hsite
  rcases hsite with rfl | hsite
  · exact l.enter_self_mem_walk
  · exact h site hsite

end SitesIn

mutual

theorem Node.sitesIn_walk (around : List (Lambda Value)) : (n : Tree) →
    SitesIn (n.emittedParts around) n.walk
  | .mk _ kind _ payload => (Payload.sitesIn_walk around kind payload).skip [_]

theorem Payload.sitesIn_walk (around : List (Lambda Value)) (kind : Kind) :
    (p : Payload Value) → SitesIn (p.emittedParts around kind) (p.walk kind)
  | .constant _ | .parameter _ => .nil _
  | .unary x _ _ => by
      rw [Payload.emittedParts, Payload.walk]
      split
      · exact .nil _
      · exact x.sitesIn_walk around
  | .binary l r _ _ _ none => (l.sitesIn_walk around).append (r.sitesIn_walk around)
  | .binary l r _ _ _ (some c) => by
      rw [Payload.emittedParts, Payload.walk]
      refine (l.sitesIn_walk around).append ((r.sitesIn_walk around).append ?_)
      split
      · exact .lambda rfl (c.sitesIn_walk around)
      · exact .nil _
  | .conditional t a b => (t.sitesIn_walk around).append
      ((a.sitesIn_walk around).append (b.sitesIn_walk around))
  | .memberAccess none _ => .nil _
  | .memberAccess (some x) m => by
      rw [Payload.emittedParts, Payload.walk]
      split
      · exact .nil _
      · exact x.sitesIn_walk around
  | .call none _ args => Node.sitesIn_walkAll around args
  | .call (some x) m args => by
      rw [Payload.emittedParts, Payload.walk]
      refine SitesIn.append ?_ (Node.sitesIn_walkAll around args)
      split
      · exact .nil _
      · exact x.sitesIn_walk around
  | .new none _ => .nil _
  | .new (some _) args => Node.sitesIn_walkAll around args
  | .newArray items => Node.sitesIn_walkAll around items
  | .listInit x inits => (x.sitesIn_walk around).append (ElementInit.sitesIn_walkAll around inits)
  | .memberInit x bindings =>
      (x.sitesIn_walk around).append (MemberBinding.sitesIn_walkAll around bindings)
  | .lambda l => .lambda rfl (l.sitesIn_walk around)
  | .invoke x args => (x.sitesIn_walk around).append (Node.sitesIn_walkAll around args)
  | .typeIs x _ => x.sitesIn_walk around
  | .assign _ x => (x.sitesIn_walk around).skip [_]
  | .block items => Node.sitesIn_walkAll around items

theorem Lambda.sitesIn_walk (outer : List (Lambda Value)) : (l : Lambda Value) →
    SitesIn (l.emittedParts outer) l.walk
  | .mk _ _ _ body => fun site hsite =>
      Lambda.mem_walk.mpr (.inr (.inl (body.sitesIn_walk _ site hsite)))

theorem Node.sitesIn_walkAll (around : List (Lambda Value)) : (ns : List Tree) →
    SitesIn (Node.emittedPartsAll around ns) (Node.walkAll ns)
  | [] => .nil _
  | n :: ns => (n.sitesIn_walk around).append (Node.sitesIn_walkAll around ns)

theorem ElementInit.sitesIn_walkAll (around : List (Lambda Value)) :
    (inits : List (ElementInit Value)) →
    SitesIn (ElementInit.emittedPartsAll around inits) (ElementInit.walkAll inits)
  | [] => .nil _
  | .mk _ args :: rest =>
      (Node.sitesIn_walkAll around args).append (ElementInit.sitesIn_walkAll around rest)

theorem MemberBinding.sitesIn_walkAll (around : List (Lambda Value)) :
    (bindings : List (MemberBinding Value)) →
    SitesIn (MemberBinding.emittedPartsAll around bindings) (MemberBinding.walkAll bindings)
  | [] => .nil _
  | .assign _ x :: rest =>
      (x.sitesIn_walk around).append (MemberBinding.sitesIn_walkAll around rest)
  | .bind _ nested :: rest => (MemberBinding.sitesIn_walkAll around nested).append
      (MemberBinding.sitesIn_walkAll around rest)
  | .list _ inits :: rest => (ElementInit.sitesIn_walkAll around inits).append
      (MemberBinding.sitesIn_walkAll around rest)

end

theorem Lambda.enter_of_mem_sites {root : Lambda Value} {site : LambdaSite}
    (h : site ∈ root.sites) : .enter site.lambda ∈ root.walk := by
  rcases List.mem_cons.mp h with rfl | h
  · exact root.enter_self_mem_walk
  · exact root.sitesIn_walk [] site h

/-! ## What code refers to -/

/-- Something that code names by a number. -/
inductive Reference
  /-- A slot of the running frame. -/
  | slot (index : Nat)
  /-- A cell of the running frame. -/
  | own (position : Nat)
  /-- A cell that the running closure captured. -/
  | captured (level position : Nat)
  /-- A pooled constant. -/
  | constant (index : Nat)
  /-- A pooled tree. -/
  | tree (index : Nat)
  /-- The unit of a closure. -/
  | unit (index : Nat)

/-- The place that an address names. -/
def Address.reference : Address → Reference
  | .slot i => .slot i
  | .own k => .own k
  | .captured level k => .captured level k

mutual

/-- Everything that a piece of code names by a number. -/
def Code.references : Code → List Reference
  | .immediate _ | .staticMember _ | .newInstance .. | .newList => []
  | .pooled i => [.constant i]
  | .load a => [a.reference]
  | .store a value => a.reference :: value.references
  | .block items => Code.referencesAll items
  | .closure u => [.unit u]
  | .invoke callee args => callee.references ++ Code.referencesAll args
  | .unary _ _ x => x.references
  | .binary _ _ l r => l.references ++ r.references
  | .kleene _ l r => l.references ++ r.references
  | .shortCircuit _ _ l r => l.references ++ r.references
  | .userShortCircuit _ _ _ l r => l.references ++ r.references
  | .coalesce l r => l.references ++ r.references
  | .coalesceWith u l r => l.references ++ (r.references ++ [.unit u])
  | .conditional t a b => t.references ++ (a.references ++ b.references)
  | .member _ x => x.references
  | .callStatic _ args => Code.referencesAll args
  | .callInstance _ x args => x.references ++ Code.referencesAll args
  | .construct _ args => Code.referencesAll args
  | .newArray items => Code.referencesAll items
  | .newArrayOf _ x => x.references
  | .assemble i new steps => .slot i :: (new.references ++ Code.referencesAll steps)
  | .setMember i _ value => .slot i :: value.references
  | .descend i _ j steps => .slot i :: .slot j :: Code.referencesAll steps
  | .append i _ args => .slot i :: Code.referencesAll args
  | .quote i => [.tree i]

/-- Everything that several pieces of code name by numbers. -/
def Code.referencesAll : List Code → List Reference
  | [] => []
  | c :: cs => c.references ++ Code.referencesAll cs

end

@[simp] theorem BinaryForm.references_code (form : BinaryForm) (l r : Code) :
    (form.code l r).references = l.references ++ r.references := by
  cases form <;> rfl

/-- A number is in the range that the scope and the tables of an emission give. A closure is made
of a unit that has the unit of the running code as its parent. -/
def Reference.Valid (scope : EmitScope) (s : EmitState) : Reference → Prop
  | .slot i => i < s.slots
  | .own k => k < scope.hoisted.length
  | .captured level k => ∃ cells, scope.ancestors[level]? = some cells ∧ k < cells.length
  | .constant i => i < s.pool.size
  | .tree i => ∃ x, s.pool.get? i = some (.expression x)
  | .unit i => ∃ u, s.units.get? i = some u ∧ u.parent = some scope.unit

theorem Reference.Valid.mono {scope : EmitScope} {s s' : EmitState} (hg : s.Grows s') :
    {r : Reference} → r.Valid scope s → r.Valid scope s'
  | .slot _, h => Nat.lt_of_lt_of_le h hg.slots
  | .own _, h => h
  | .captured .., h => h
  | .constant _, h => Nat.lt_of_lt_of_le h hg.pool.size
  | .tree _, ⟨x, hx⟩ => ⟨x, hg.pool.get?_some hx⟩
  | .unit _, ⟨u, hu, hp⟩ => ⟨u, hg.units.get?_some hu, hp⟩

theorem findLevel?_lt {p level k : Nat} {lists : List (List Nat)}
    (h : findLevel? p lists = some (level, k)) :
    ∃ cells, lists[level]? = some cells ∧ k < cells.length := by
  induction lists generalizing level with
  | nil => cases h
  | cons cells rest ih =>
      simp only [findLevel?] at h
      split at h
      case h_1 position hk =>
        cases h
        exact ⟨cells, rfl, (List.idxOf?_eq_some_iff.mp hk).1⟩
      case h_2 =>
        obtain ⟨⟨level', k'⟩, hf, heq⟩ := Option.map_eq_some_iff.mp h
        cases heq
        exact ih hf

/-- The address of a parameter is in range if there are slots for the arguments. -/
theorem EmitScope.reference_valid {scope : EmitScope} {p : Nat} {a : Address}
    (h : scope.address? p = some a) {s : EmitState} (hs : scope.arguments.length ≤ s.slots) :
    a.reference.Valid scope s := by
  unfold EmitScope.address? at h
  split at h
  case h_1 k hk =>
    cases h
    exact (List.idxOf?_eq_some_iff.mp hk).1
  case h_2 =>
    split at h
    case h_1 i hi =>
      cases h
      have hget := getElem?_of_lastIndex? hi
      exact Nat.lt_of_lt_of_le (List.getElem?_eq_some_iff.mp hget).1 hs
    case h_2 =>
      obtain ⟨⟨level, k⟩, hf, rfl⟩ := Option.map_eq_some_iff.mp h
      exact findLevel?_lt hf

/-! ## Where the units are -/

namespace LambdaSite

/-- What the code of a listed lambda can address, if its unit is `unit`. -/
def emitScope (captures : Captures) (unit : Nat) (site : LambdaSite) : EmitScope where
  unit := unit
  arguments := site.lambda.params.map (·.id)
  hoisted := captures.idsOf site.lambda.id
  ancestors := site.outer.map fun l => captures.idsOf l.id

/-- The parent of the unit of a listed lambda: no unit for the root, else the earlier unit of the
lambda directly around it. -/
inductive Parent (sites : List LambdaSite) (u : Nat) (site : LambdaSite) : Option Nat → Prop
  | root (first : u = 0) (outer : site.outer = []) : Parent sites u site none
  | inside {v : Nat} {d : LambdaSite} (earlier : v < u) (listed : sites[v]? = some d)
      (outer : site.outer = d.around) : Parent sites u site (some v)

end LambdaSite

/-- The unit at position `u` was emitted from the lambda that is listed there, and everything its
code refers to is in range. -/
structure UnitOf (cx : EmitContext) (sites : List LambdaSite) (units : Arena CodeUnit)
    (pool : Arena Value) (u : Nat) (site : LambdaSite) (parent : Option Nat) (slotCount : Nat)
    (body : Code) : Prop where
  listed : sites[u]? = some site
  unit : units.get? u = some (site.lambda.codeUnit cx.captures parent slotCount body)
  emitted : ∃ s s', site.lambda.body.emit cx (site.emitScope cx.captures u) s = .ok (body, s')
  params : site.lambda.params.length ≤ slotCount
  references : ∀ r ∈ body.references,
    r.Valid (site.emitScope cx.captures u) ⟨units, pool, slotCount⟩
  parent : site.Parent sites u parent

/-- The unit at position `u` was emitted from the lambda that is listed there. -/
def Laid (cx : EmitContext) (sites : List LambdaSite) (units : Arena CodeUnit)
    (pool : Arena Value) (u : Nat) : Prop :=
  ∃ site parent slotCount body, UnitOf cx sites units pool u site parent slotCount body

theorem Laid.mono {cx : EmitContext} {sites : List LambdaSite} {s s' : EmitState} (hg : s.Grows s')
    {u : Nat} (h : Laid cx sites s.units s.pool u) : Laid cx sites s'.units s'.pool u := by
  obtain ⟨site, parent, slotCount, body, h⟩ := h
  have hg' : EmitState.Grows ⟨s.units, s.pool, slotCount⟩ ⟨s'.units, s'.pool, slotCount⟩ :=
    ⟨hg.units, hg.pool, Nat.le_refl _⟩
  exact ⟨site, parent, slotCount, body, h.listed, hg.units.get?_some h.unit, h.emitted, h.params,
    fun r hr => (h.references r hr).mono hg', h.parent⟩

/-- The parts are listed from position `n` on. -/
def Listed (sites : List LambdaSite) (n : Nat) (parts : List EmittedPart) : Prop :=
  ∀ (k : Nat) (site : LambdaSite), (sitesOf parts)[k]? = some site → sites[n + k]? = some site

namespace Listed

variable {sites : List LambdaSite} {n : Nat} {ps qs : List EmittedPart}

theorem left (h : Listed sites n (ps ++ qs)) : Listed sites n ps := by
  intro k site hk
  refine h k site ?_
  rw [sitesOf_append, List.getElem?_append_left (List.getElem?_eq_some_iff.mp hk).1, hk]

theorem right (h : Listed sites n (ps ++ qs)) : Listed sites (n + (sitesOf ps).length) qs := by
  intro k site hk
  rw [Nat.add_assoc]
  refine h _ site ?_
  rw [sitesOf_append, List.getElem?_append_right (Nat.le_add_right _ _), Nat.add_sub_cancel_left,
    hk]

/-- A part that gets a unit is listed first, and the other parts after it. -/
theorem cons {part : EmittedPart} {site : LambdaSite} (hpart : part.site? = some site)
    (h : Listed sites n (part :: ps)) : sites[n]? = some site ∧ Listed sites (n + 1) ps := by
  have hcons : sitesOf (part :: ps) = site :: sitesOf ps := by simp [sitesOf, hpart]
  refine ⟨h 0 site (by rw [hcons]; rfl), fun k site' hk => ?_⟩
  have hnext := h (k + 1) site' (by rw [hcons]; exact hk)
  rwa [Nat.add_assoc, Nat.add_comm 1 k]

end Listed

/-- An emission inside the unit `v` of a listed lambda takes exactly the parts from the tables, and
its code refers to what is in range. -/
structure Lays (cx : EmitContext) (within : LambdaSite) (v : Nat) (parts : List EmittedPart)
    (refs : List Reference) (s s' : EmitState) : Prop where
  grows : s.Grows s'
  count : s'.units.size = s.units.size + (sitesOf parts).length
  pool : s'.pool.items.toList = s.pool.items.toList ++ pooledOf parts
  valid : ∀ r ∈ refs, r.Valid (within.emitScope cx.captures v) s'
  laid : ∀ sites, Listed sites s.units.size parts → sites[v]? = some within → v < s.units.size →
    ∀ u, s.units.size ≤ u → u < s'.units.size → Laid cx sites s'.units s'.pool u

namespace Lays

variable {cx : EmitContext} {within : LambdaSite} {v : Nat} {ps qs : List EmittedPart}
  {rs ts : List Reference} {s s₁ s' : EmitState}

theorem refl (cx : EmitContext) (within : LambdaSite) (v : Nat) (s : EmitState) :
    Lays cx within v [] [] s s where
  grows := .refl s
  count := rfl
  pool := by simp [pooledOf]
  valid := by simp
  laid := fun _ _ _ _ u hu hu' => absurd hu' (Nat.not_lt.mpr hu)

theorem trans (h : Lays cx within v ps rs s s₁) (h' : Lays cx within v qs ts s₁ s') :
    Lays cx within v (ps ++ qs) (rs ++ ts) s s' where
  grows := h.grows.trans h'.grows
  count := by rw [h'.count, h.count, sitesOf_append, List.length_append, Nat.add_assoc]
  pool := by rw [h'.pool, h.pool, pooledOf_append, List.append_assoc]
  valid := by
    intro r hr
    rcases List.mem_append.mp hr with hr | hr
    · exact (h.valid r hr).mono h'.grows
    · exact h'.valid r hr
  laid := by
    intro sites hl hv hlt u hu hu'
    by_cases hu₁ : u < s₁.units.size
    · exact (h.laid sites hl.left hv hlt u hu hu₁).mono h'.grows
    · have hl' : Listed sites s₁.units.size qs := by
        rw [h.count]
        exact hl.right
      have hlt' : v < s₁.units.size := Nat.lt_of_lt_of_le hlt h.grows.units.size
      exact h'.laid sites hl' hv hlt' u (Nat.not_lt.mp hu₁) hu'

/-- One more reference. -/
theorem refer (h : Lays cx within v ps rs s s') {r : Reference}
    (hr : r.Valid (within.emitScope cx.captures v) s') : Lays cx within v ps (r :: rs) s s' where
  grows := h.grows
  count := h.count
  pool := h.pool
  valid := List.forall_mem_cons.mpr ⟨hr, h.valid⟩
  laid := h.laid

/-- A slot is reserved before. -/
theorem temporary (h : Lays cx within v ps rs { s with slots := s.slots + 1 } s') :
    Lays cx within v ps rs s s' where
  grows := (EmitState.Grows.temporary s).trans h.grows
  count := h.count
  pool := h.pool
  valid := h.valid
  laid := h.laid

/-- A part that is pooled. -/
theorem pooled {part : EmittedPart} {v' : Value} (hpart : part.pooled? = some v')
    (hsite : part.site? = none) {r : Reference}
    (hr : r.Valid (within.emitScope cx.captures v) { s with pool := (s.pool.alloc v').2 }) :
    Lays cx within v [part] [r] s { s with pool := (s.pool.alloc v').2 } where
  grows := .pool_alloc s v'
  count := by simp [sitesOf, hsite]
  pool := by simp [pooledOf, hpart, Arena.alloc]
  valid := by simpa using hr
  laid := fun _ _ _ _ u hu hu' => absurd hu' (Nat.not_lt.mpr hu)

/-- A part that takes nothing. -/
theorem skip {part : EmittedPart} (hpart : part.pooled? = none) (hsite : part.site? = none) :
    Lays cx within v [part] [] s s where
  grows := .refl s
  count := by simp [sitesOf, hsite]
  pool := by simp [pooledOf, hpart]
  valid := by simp
  laid := fun _ _ _ _ u hu hu' => absurd hu' (Nat.not_lt.mpr hu)

end Lays

section LambdaUnits

variable {cx : EmitContext} {l : Lambda Value} {outer : List (Lambda Value)} {parent : Option Nat}
  {ps : List EmittedPart} {code : Code} {s s₁ : EmitState}

/-- The unit of a lambda is where it was put. -/
theorem EmitState.finish_get? (hg : (s.enter parent l).Grows s₁) (unit : CodeUnit) :
    (s₁.finish s unit).units.get? s.units.size = some unit := by
  have hlt : s.units.size < s₁.units.size :=
    Nat.lt_of_lt_of_le (by simp [EmitState.enter]) hg.units.size
  exact Array.getElem?_setIfInBounds_self_of_lt hlt

/-- Finishing a unit leaves the other units alone. -/
theorem EmitState.finish_get?_ne {i : Nat} (hi : i ≠ s.units.size) (unit : CodeUnit) :
    (s₁.finish s unit).units.get? i = s₁.units.get? i :=
  Array.getElem?_setIfInBounds_ne (Ne.symm hi)

/-- What is in range stays in range when a unit is finished, which keeps its parent. -/
theorem Reference.Valid.finish {scope : EmitScope} {slots count : Nat}
    (hg : (s.enter parent l).Grows s₁) {r : Reference}
    (h : r.Valid scope ⟨s₁.units, s₁.pool, slots⟩) :
    r.Valid scope ⟨(s₁.finish s (l.codeUnit cx.captures parent count code)).units,
      s₁.pool, slots⟩ := by
  cases r with
  | slot _ => exact h
  | own _ => exact h
  | captured _ _ => exact h
  | constant _ => exact h
  | tree _ => exact h
  | unit i =>
      obtain ⟨u, hu, hp⟩ := h
      by_cases hi : i = s.units.size
      · -- the unit that is finished was reserved with the same parent
        subst hi
        have hreserved : s₁.units.get? s.units.size
            = some ⟨l.name, l.signature, [], parent, l.params.length, .block []⟩ :=
          hg.units.get?_some (Arena.get?_alloc_self _ _)
        have heq : parent = u.parent := by
          have hsome := hreserved.symm.trans hu
          rw [← Option.some.inj hsome]
        exact ⟨_, EmitState.finish_get? hg _, heq.trans hp⟩
      · exact ⟨u, (EmitState.finish_get?_ne hi _).trans hu, hp⟩

/-- The units from the unit of a lambda on, if its body lays out its parts. -/
theorem Lays.laid_finish
    (h : Lays cx ⟨l, outer⟩ s.units.size ps code.references (s.enter parent l) s₁)
    (hb : l.body.emit cx (LambdaSite.emitScope cx.captures s.units.size ⟨l, outer⟩)
      (s.enter parent l) = .ok (code, s₁))
    {sites : List LambdaSite} (hs : sites[s.units.size]? = some ⟨l, outer⟩)
    (hl : Listed sites (s.units.size + 1) ps)
    (hp : LambdaSite.Parent sites s.units.size ⟨l, outer⟩ parent)
    {u : Nat} (hu : s.units.size ≤ u) (hu' : u < s₁.units.size) :
    Laid cx sites (s₁.finish s (l.codeUnit cx.captures parent s₁.slots code)).units
      s₁.pool u := by
  have hsize : (s.enter parent l).units.size = s.units.size + 1 := Arena.size_alloc _ _
  by_cases heq : u = s.units.size
  · subst heq
    exact ⟨⟨l, outer⟩, parent, s₁.slots, code, hs, EmitState.finish_get? h.grows _, ⟨_, _, hb⟩,
      h.grows.slots, fun r hr => (h.valid r hr).finish h.grows, hp⟩
  · -- the units inside the lambda
    have hlt : s.units.size < u := by omega
    obtain ⟨site', parent', slotCount, body, hof⟩ := h.laid sites (by rwa [hsize]) hs
      (by rw [hsize]; exact Nat.lt_succ_self _) u (by rw [hsize]; exact hlt) hu'
    exact ⟨site', parent', slotCount, body, hof.listed,
      (EmitState.finish_get?_ne heq _).trans hof.unit, hof.emitted, hof.params,
      fun r hr => (hof.references r hr).finish h.grows, hof.parent⟩

/-- A lambda inside another one. -/
theorem Lays.lambda {within : LambdaSite} {v : Nat} {part : EmittedPart}
    (hpart : part.site? = some ⟨l, within.around⟩) (hpool : part.pooled? = none)
    (h : Lays cx ⟨l, within.around⟩ s.units.size ps code.references (s.enter (some v) l) s₁)
    (hb : l.body.emit cx (LambdaSite.emitScope cx.captures s.units.size ⟨l, within.around⟩)
      (s.enter (some v) l) = .ok (code, s₁)) :
    Lays cx within v (part :: ps) [.unit s.units.size] s
      (s₁.finish s (l.codeUnit cx.captures (some v) s₁.slots code)) where
  grows := .finish h.grows _
  count := by
    have hsize : (s.enter (some v) l).units.size = s.units.size + 1 := Arena.size_alloc _ _
    simp only [EmitState.finish, Arena.size_set, h.count, hsize, sitesOf, List.filterMap_cons,
      hpart, List.length_cons]
    omega
  pool := by
    have hpooled : pooledOf (part :: ps) = pooledOf ps := by simp [pooledOf, hpool]
    rw [hpooled]
    exact h.pool
  valid := by
    intro r hr
    rw [List.mem_singleton.mp hr]
    exact ⟨_, EmitState.finish_get? h.grows _, rfl⟩
  laid := by
    intro sites hl hv hlt u hu hu'
    obtain ⟨hhere, hrest⟩ := hl.cons hpart
    exact h.laid_finish hb hhere hrest (.inside hlt hv rfl) hu
      (by simpa [EmitState.finish] using hu')

end LambdaUnits

/-! ## Emission lays out the parts of a tree -/

section Emissions

variable {cx : EmitContext}

mutual

theorem Node.emit_lays : (n : Tree) → {within : LambdaSite} → {v : Nat} → {c : Code} →
    {s s' : EmitState} → within.lambda.params.length ≤ s.slots →
    n.emit cx (within.emitScope cx.captures v) s = .ok (c, s') →
    Lays cx within v (n.emittedParts within.around) c.references s s'
  | .mk _ kind ty payload, _, _, _, _, _, hs, h => Payload.emit_lays kind ty payload hs h

theorem Payload.emit_lays (kind : Kind) (ty : Ty) : (payload : Payload Value) →
    {within : LambdaSite} → {v : Nat} → {c : Code} → {s s' : EmitState} →
    within.lambda.params.length ≤ s.slots →
    payload.emit cx (within.emitScope cx.captures v) kind ty s = .ok (c, s') →
    Lays cx within v (payload.emittedParts within.around kind) c.references s s'
  | .constant x, _, _, _, s, _, _, h => by
      rcases emitConstant_eq_ok.mp (Payload.emit_constant.mp h).2 with
        ⟨hx, rfl, rfl⟩ | ⟨hx, rfl, rfl⟩
      · exact .skip (by simp [EmittedPart.pooled?, hx]) rfl
      · refine .pooled (by simp [EmittedPart.pooled?, hx]) rfl ?_
        show s.pool.size < (s.pool.alloc x).2.size
        simp
  | .parameter p, within, v, _, s, _, hs, h => by
      obtain ⟨-, rfl, a, ha, rfl⟩ := Payload.emit_parameter.mp h
      exact (Lays.refl cx within v s).refer
        (EmitScope.reference_valid ha (by simpa [LambdaSite.emitScope] using hs))
  | .unary x method lifted, _, _, _, s, _, hs, h => by
      rw [Payload.emittedParts]
      by_cases hq : kind = .quote
      · subst hq
        obtain ⟨-, hp, rfl⟩ := Payload.emit_quote.mp h
        cases hp
        exact .pooled rfl rfl ⟨x, Arena.get?_alloc_self _ _⟩
      · obtain ⟨_, _, _, -, hx, rfl⟩ := (Payload.emit_unary hq).mp h
        rw [if_neg hq, Code.references]
        exact Node.emit_lays x hs hx
  | .binary l r method lifted _ none, _, _, _, _, _, hs, h => by
      by_cases hc : kind = .coalesce
      · subst hc
        obtain ⟨_, _, _, hl, hr, rfl⟩ := Payload.emit_coalesce.mp h
        have hl' := Node.emit_lays l hs hl
        exact hl'.trans (Node.emit_lays r (Nat.le_trans hs hl'.grows.slots) hr)
      · obtain ⟨form, _, _, _, -, hl, hr, rfl⟩ := (Payload.emit_binary hc).mp h
        have hl' := Node.emit_lays l hs hl
        rw [form.references_code]
        exact hl'.trans (Node.emit_lays r (Nat.le_trans hs hl'.grows.slots) hr)
  | .binary l r method lifted _ (some conv), _, _, _, _, _, hs, h => by
      rw [Payload.emittedParts]
      by_cases hc : kind = .coalesce
      · subst hc
        obtain ⟨_, _, _, _, _, hl, hr, hu, rfl⟩ := Payload.emit_coalesceWith.mp h
        have hl' := Node.emit_lays l hs hl
        have hr' := Node.emit_lays r (Nat.le_trans hs hl'.grows.slots) hr
        exact hl'.trans (hr'.trans (Lambda.emit_lays conv rfl rfl hu))
      · obtain ⟨form, _, _, _, -, hl, hr, rfl⟩ := (Payload.emit_binary hc).mp h
        have hl' := Node.emit_lays l hs hl
        rw [form.references_code, if_neg hc, List.append_nil]
        exact hl'.trans (Node.emit_lays r (Nat.le_trans hs hl'.grows.slots) hr)
  | .conditional t a b, _, _, _, _, _, hs, h => by
      obtain ⟨-, _, _, _, _, _, ht, ha, hb, rfl⟩ := Payload.emit_conditional.mp h
      have ht' := Node.emit_lays t hs ht
      have hs₁ := Nat.le_trans hs ht'.grows.slots
      have ha' := Node.emit_lays a hs₁ ha
      exact ht'.trans (ha'.trans (Node.emit_lays b (Nat.le_trans hs₁ ha'.grows.slots) hb))
  | .memberAccess none m, _, _, _, _, _, _, h => by
      cases hm : m.isStatic with
      | true =>
          obtain ⟨-, rfl, rfl⟩ := (Payload.emit_staticMember hm).mp h
          exact .refl _ _ _ _
      | false =>
          obtain ⟨-, _, _, hx, -⟩ := (Payload.emit_member hm).mp h
          cases hx
  | .memberAccess (some x) m, _, _, _, _, _, hs, h => by
      rw [Payload.emittedParts]
      cases hm : m.isStatic with
      | true =>
          obtain ⟨-, rfl, rfl⟩ := (Payload.emit_staticMember hm).mp h
          exact .refl _ _ _ _
      | false =>
          obtain ⟨-, _, _, heq, hx, rfl⟩ := (Payload.emit_member hm).mp h
          cases heq
          rw [Code.references]
          exact Node.emit_lays x hs hx
  | .call none m args, _, _, _, _, _, hs, h => by
      cases hm : m.isStatic with
      | true =>
          obtain ⟨-, _, ha, rfl⟩ := (Payload.emit_callStatic hm).mp h
          exact Node.emitAll_lays args hs ha
      | false =>
          obtain ⟨-, _, _, _, _, hx, -⟩ := (Payload.emit_callInstance hm).mp h
          cases hx
  | .call (some x) m args, _, _, _, _, _, hs, h => by
      rw [Payload.emittedParts]
      cases hm : m.isStatic with
      | true =>
          obtain ⟨-, _, ha, rfl⟩ := (Payload.emit_callStatic hm).mp h
          exact Node.emitAll_lays args hs ha
      | false =>
          obtain ⟨-, _, _, _, _, heq, hx, ha, rfl⟩ := (Payload.emit_callInstance hm).mp h
          cases heq
          have hx' := Node.emit_lays x hs hx
          exact hx'.trans (Node.emitAll_lays args (Nat.le_trans hs hx'.grows.slots) ha)
  | .new (some _) args, _, _, _, _, _, hs, h => by
      obtain ⟨-, _, ha, rfl⟩ := Payload.emit_construct.mp h
      exact Node.emitAll_lays args hs ha
  | .new none _, _, _, _, _, _, _, h => by
      obtain ⟨rfl, hc⟩ := emitDefault_eq_ok (Payload.emit_newDefault.mp h).2
      rcases hc with ⟨rfl, -⟩ | ⟨_, -, rfl⟩ | ⟨_, -, rfl⟩ <;> exact .refl _ _ _ _
  | .newArray items, within, v, _, s, s', hs, h => by
      rw [Payload.emittedParts]
      rcases Payload.emit_newArray.mp h with ⟨-, _, hi, rfl⟩ | ⟨-, x, _, length, hi, -, hx, rfl⟩
      · exact Node.emitAll_lays items hs hi
      · -- the length of an array is emitted like a list of one item
        have hlist : Lays cx within v (Node.emittedPartsAll within.around items)
            (Code.referencesAll [length]) s s' :=
          Node.emitAll_lays items hs (hi ▸ Node.emitAll_cons.mpr
            ⟨_, _, _, hx, Node.emitAll_nil.mpr ⟨rfl, rfl⟩, rfl⟩)
        rwa [Code.referencesAll, Code.referencesAll, List.append_nil] at hlist
  | .listInit x inits, _, _, _, _, _, hs, h => by
      obtain ⟨-, _, s₁, _, hx, hi, rfl⟩ := Payload.emit_listInit.mp h
      have hx' := Node.emit_lays x hs hx
      have hi' := ElementInit.emitAll_lays inits (Nat.lt_succ_self s₁.slots)
        (Nat.le_succ_of_le (Nat.le_trans hs hx'.grows.slots)) hi
      exact (hx'.trans hi'.temporary).refer (Nat.lt_of_succ_le hi'.grows.slots)
  | .memberInit x bindings, _, _, _, _, _, hs, h => by
      obtain ⟨-, _, s₁, _, hx, hb, rfl⟩ := Payload.emit_memberInit.mp h
      have hx' := Node.emit_lays x hs hx
      have hb' := MemberBinding.emitAll_lays bindings (Nat.lt_succ_self s₁.slots)
        (Nat.le_succ_of_le (Nat.le_trans hs hx'.grows.slots)) hb
      exact (hx'.trans hb'.temporary).refer (Nat.lt_of_succ_le hb'.grows.slots)
  | .lambda l, _, _, _, _, _, _, h => by
      obtain ⟨-, _, hl, rfl⟩ := Payload.emit_lambda.mp h
      exact Lambda.emit_lays l rfl rfl hl
  | .invoke x args, _, _, _, _, _, hs, h => by
      obtain ⟨-, _, _, _, hx, ha, rfl⟩ := Payload.emit_invoke.mp h
      have hx' := Node.emit_lays x hs hx
      exact hx'.trans (Node.emitAll_lays args (Nat.le_trans hs hx'.grows.slots) ha)
  | .typeIs x _, _, _, _, _, _, hs, h => by
      obtain ⟨-, _, hx, rfl⟩ := Payload.emit_typeIs.mp h
      rw [Code.references]
      exact Node.emit_lays x hs hx
  | .assign _ x, _, _, _, _, _, hs, h => by
      obtain ⟨-, _, a, hx, ha, rfl⟩ := Payload.emit_assign.mp h
      have hx' := Node.emit_lays x hs hx
      have hs' := Nat.le_trans hs hx'.grows.slots
      exact hx'.refer (EmitScope.reference_valid ha (by simpa [LambdaSite.emitScope] using hs'))
  | .block items, _, _, _, _, _, hs, h => by
      obtain ⟨-, _, hi, rfl⟩ := Payload.emit_block.mp h
      exact Node.emitAll_lays items hs hi

/-- A nested lambda takes a unit and what its body takes. -/
theorem Lambda.emit_lays : (l : Lambda Value) → {within : LambdaSite} → {v u : Nat} →
    {s s' : EmitState} → {part : EmittedPart} → part.site? = some ⟨l, within.around⟩ →
    part.pooled? = none → l.emit cx (some (within.emitScope cx.captures v)) s = .ok (u, s') →
    Lays cx within v (part :: l.emittedParts within.around) [.unit u] s s'
  | .mk _ _ _ body, _, _, _, _, _, _, hpart, hpool, h => by
      obtain ⟨rfl, _, _, hb, rfl⟩ := Lambda.emit_eq_ok.mp h
      exact .lambda hpart hpool (Node.emit_lays body (Nat.le_refl _) hb) hb

theorem Node.emitAll_lays : (ns : List Tree) → {within : LambdaSite} → {v : Nat} →
    {cs : List Code} → {s s' : EmitState} → within.lambda.params.length ≤ s.slots →
    Node.emitAll cx (within.emitScope cx.captures v) ns s = .ok (cs, s') →
    Lays cx within v (Node.emittedPartsAll within.around ns) (Code.referencesAll cs) s s'
  | [], _, _, _, _, _, _, h => by
      obtain ⟨rfl, rfl⟩ := Node.emitAll_nil.mp h
      exact .refl _ _ _ _
  | n :: ns, _, _, _, _, _, hs, h => by
      obtain ⟨_, _, _, hn, hns, rfl⟩ := Node.emitAll_cons.mp h
      have hn' := Node.emit_lays n hs hn
      exact hn'.trans (Node.emitAll_lays ns (Nat.le_trans hs hn'.grows.slots) hns)

theorem ElementInit.emitAll_lays : (inits : List (ElementInit Value)) → {within : LambdaSite} →
    {v slot : Nat} → {cs : List Code} → {s s' : EmitState} → slot < s.slots →
    within.lambda.params.length ≤ s.slots →
    ElementInit.emitAll cx (within.emitScope cx.captures v) slot inits s = .ok (cs, s') →
    Lays cx within v (ElementInit.emittedPartsAll within.around inits) (Code.referencesAll cs) s s'
  | [], _, _, _, _, _, _, _, _, h => by
      obtain ⟨rfl, rfl⟩ := ElementInit.emitAll_nil.mp h
      exact .refl _ _ _ _
  | .mk _ args :: rest, _, _, _, _, _, _, hslot, hs, h => by
      obtain ⟨-, _, _, _, ha, hr, rfl⟩ := ElementInit.emitAll_cons.mp h
      have ha' := Node.emitAll_lays args hs ha
      have hslot' := Nat.lt_of_lt_of_le hslot ha'.grows.slots
      have hr' := ElementInit.emitAll_lays rest hslot' (Nat.le_trans hs ha'.grows.slots) hr
      exact (ha'.trans hr').refer (Nat.lt_of_lt_of_le hslot' hr'.grows.slots)

theorem MemberBinding.emitAll_lays : (bindings : List (MemberBinding Value)) →
    {within : LambdaSite} → {v slot : Nat} → {cs : List Code} → {s s' : EmitState} →
    slot < s.slots → within.lambda.params.length ≤ s.slots →
    MemberBinding.emitAll cx (within.emitScope cx.captures v) slot bindings s = .ok (cs, s') →
    Lays cx within v (MemberBinding.emittedPartsAll within.around bindings)
      (Code.referencesAll cs) s s'
  | [], _, _, _, _, _, _, _, _, h => by
      obtain ⟨rfl, rfl⟩ := MemberBinding.emitAll_nil.mp h
      exact .refl _ _ _ _
  | .assign _ x :: rest, _, _, _, _, _, _, hslot, hs, h => by
      obtain ⟨_, _, _, hx, hr, rfl⟩ := MemberBinding.emitAll_assign h
      have hx' := Node.emit_lays x hs hx
      have hslot' := Nat.lt_of_lt_of_le hslot hx'.grows.slots
      have hr' := MemberBinding.emitAll_lays rest hslot' (Nat.le_trans hs hx'.grows.slots) hr
      exact (hx'.trans hr').refer (Nat.lt_of_lt_of_le hslot' hr'.grows.slots)
  | .bind _ nested :: rest, _, _, _, _, s, _, hslot, hs, h => by
      obtain ⟨_, _, _, hn, hr, rfl⟩ := MemberBinding.emitAll_bind.mp h
      have hn' := MemberBinding.emitAll_lays nested (Nat.lt_succ_self s.slots)
        (Nat.le_succ_of_le hs) hn
      have hinner := Nat.lt_of_succ_le hn'.grows.slots
      have hr' := MemberBinding.emitAll_lays rest (Nat.lt_trans hslot hinner)
        (Nat.le_trans hs (Nat.le_of_lt hinner)) hr
      have hinner' := Nat.lt_of_lt_of_le hinner hr'.grows.slots
      exact ((hn'.temporary.trans hr').refer (r := .slot s.slots) hinner').refer
        (Nat.lt_trans hslot hinner')
  | .list _ inits :: rest, _, _, _, _, s, _, hslot, hs, h => by
      obtain ⟨_, _, _, hn, hr, rfl⟩ := MemberBinding.emitAll_list.mp h
      have hn' := ElementInit.emitAll_lays inits (Nat.lt_succ_self s.slots)
        (Nat.le_succ_of_le hs) hn
      have hinner := Nat.lt_of_succ_le hn'.grows.slots
      have hr' := MemberBinding.emitAll_lays rest (Nat.lt_trans hslot hinner)
        (Nat.le_trans hs (Nat.le_of_lt hinner)) hr
      have hinner' := Nat.lt_of_lt_of_le hinner hr'.grows.slots
      exact ((hn'.temporary.trans hr').refer (r := .slot s.slots) hinner').refer
        (Nat.lt_trans hslot hinner')

end

end Emissions

/-! ## Programs -/

namespace Program

variable {schema : Schema} {options : Options} {root : Lambda Value} {p : Program}

/-- The tables of a program hold the listed lambdas and pooled values, in order. -/
structure Layout (cx : EmitContext) (root : Lambda Value) (p : Program) : Prop where
  count : p.units.size = root.sites.length
  pool : p.pool.items.toList = pooledOf (root.emittedParts [])
  laid : ∀ u < p.units.size, Laid cx root.sites p.units p.pool u

theorem layout (h : ofLambda schema options root = .ok p) :
    Layout ⟨schema, root.captures⟩ root p := by
  obtain ⟨⟨u, s'⟩, hr⟩ := emit_of_ofLambda h
  have hp : p = ⟨s'.units, s'.pool, options⟩ := by
    unfold ofLambda StateT.run at h
    rw [hr] at h
    exact (Except.ok.inj h).symm
  obtain ⟨rfl, code, s₁, hb, rfl⟩ := Lambda.emit_eq_ok.mp hr
  have hbody : Lays ⟨schema, root.captures⟩ ⟨root, []⟩ 0 (root.emittedParts []) code.references
      (EmitState.enter {} none root) s₁ := by
    rw [root.emittedParts_eq]
    exact Node.emit_lays root.body (Nat.le_refl _) hb
  have hsize : (EmitState.enter {} none root).units.size = 1 := Arena.size_alloc _ _
  subst hp
  refine ⟨?_, hbody.pool, fun u hu => ?_⟩
  · rw [EmitState.finish, Arena.size_set, hbody.count, hsize, Lambda.sites, List.length_cons,
      Nat.add_comm]
  · rw [EmitState.finish, Arena.size_set] at hu
    refine hbody.laid_finish hb rfl ?_ (.root rfl rfl) (Nat.zero_le u) hu
    -- the root is listed first, and its parts from position one on
    intro k site hk
    rw [show (EmitState.units {}).size + 1 + k = k + 1 from by rw [Nat.add_comm]; rfl]
    exact hk

end Program

end ExprTree
