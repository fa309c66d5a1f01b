import ExprTree.Proofs.Identities
import ExprTree.Proofs.Occurrences
import ExprTree.Proofs.Representation

set_option autoImplicit false

/-! # Scope errors

Whether a parameter has an address is decided by three walks over a tree: the search for free
parameters, the search for captured ones, and the emitter itself. They agree. A parameter has an
address in the code of a lambda exactly if that lambda or one around it declares the parameter
(`Inside.address?_mention`, `Inside.address?_quote`). So the emitter reports a parameter only if
one is free, and if it reports nothing then all free uses are in parts that it does not look at
(`compile_scope_errors`).
-/

namespace ExprTree

/-! ## Addresses and declarations -/

/-- One of the lambdas declares the parameter. -/
def Declared (chain : List (Lambda Value)) (p : Nat) : Prop := ∃ l ∈ chain, l.declares p = true

theorem not_declared_nil (p : Nat) : ¬Declared [] p := by simp [Declared]

theorem declared_cons {l : Lambda Value} {chain : List (Lambda Value)} {p : Nat} :
    Declared (l :: chain) p ↔ l.declares p = true ∨ Declared chain p := by simp [Declared]

/-- The innermost of the lambdas that declare a parameter. -/
theorem Declared.find? {chain : List (Lambda Value)} {p : Nat} (h : Declared chain p) :
    ∃ d ∈ chain, chain.find? (·.declares p) = some d := by
  have hsome : (chain.find? (·.declares p)).isSome := List.find?_isSome.mpr h
  obtain ⟨d, hd⟩ := Option.isSome_iff_exists.mp hsome
  exact ⟨d, List.mem_of_find?_eq_some hd, hd⟩

theorem mem_of_idxOf? {x k : Nat} {xs : List Nat} (h : xs.idxOf? x = some k) : x ∈ xs := by
  obtain ⟨hk, hx, -⟩ := List.idxOf?_eq_some_iff.mp h
  exact hx ▸ List.getElem_mem hk

theorem findLevel?_isSome {x : Nat} {levels : List (List Nat)} :
    (findLevel? x levels).isSome = true ↔ ∃ cells ∈ levels, x ∈ cells := by
  induction levels with
  | nil => simp [findLevel?]
  | cons cells rest ih =>
      rw [findLevel?]
      cases hx : cells.idxOf? x with
      | some k =>
          have hmem : x ∈ cells := mem_of_idxOf? hx
          simp [hmem]
      | none =>
          have hmem : x ∉ cells := List.idxOf?_eq_none_iff.mp hx
          simp [hmem, ih]

theorem EmitScope.address?_isSome {scope : EmitScope} {p : Nat} :
    (scope.address? p).isSome = true ↔
      p ∈ scope.hoisted ∨ p ∈ scope.arguments ∨ ∃ cells ∈ scope.ancestors, p ∈ cells := by
  unfold address?
  cases hh : scope.hoisted.idxOf? p with
  | some k =>
      have hmem : p ∈ scope.hoisted := mem_of_idxOf? hh
      simp [hmem]
  | none =>
      have hnot : p ∉ scope.hoisted := List.idxOf?_eq_none_iff.mp hh
      cases ha : lastIndex? p scope.arguments with
      | some i => simp [List.mem_of_getElem? (getElem?_of_lastIndex? ha)]
      | none =>
          have hargs : p ∉ scope.arguments := lastIndex?_eq_none.mp ha
          simp [hnot, hargs, findLevel?_isSome]

section Addresses

variable {C : Compilation} {l : Lambda Value} {outer : List (Lambda Value)} {unit p : Nat}

/-- An address leads to a lambda that declares the parameter. -/
theorem Compilation.declared_of_address? (hid : Identified C.root.walk)
    (hin : ∀ d ∈ l :: outer, .enter d ∈ C.root.walk)
    (h : ((C.scope l outer unit).address? p).isSome = true) : Declared (l :: outer) p := by
  rcases EmitScope.address?_isSome.mp h with hp | hp | ⟨cells, hcells, hp⟩
  · exact ⟨l, List.mem_cons_self, declares_of_hoisted hid (hin l List.mem_cons_self) hp⟩
  · exact ⟨l, List.mem_cons_self, Lambda.declares_iff.mpr hp⟩
  · obtain ⟨d, hd, rfl⟩ := List.mem_map.mp hcells
    have hmem : d ∈ l :: outer := List.mem_cons_of_mem l hd
    exact ⟨d, hmem, declares_of_hoisted hid (hin d hmem) hp⟩

/-- A declared parameter has an address, if it is captured where that is needed. -/
theorem Compilation.address?_of_declared (h : Declared (l :: outer) p)
    (hrec : l.declares p = false → ∀ d, outer.find? (·.declares p) = some d → p ∈ C.hoisted d) :
    ((C.scope l outer unit).address? p).isSome = true := by
  rw [EmitScope.address?_isSome]
  cases hl : l.declares p with
  | true => exact .inr (.inl (Lambda.declares_iff.mp hl))
  | false =>
      have houter : Declared outer p := (declared_cons.mp h).resolve_left (by simp [hl])
      obtain ⟨d, hmem, hd⟩ := houter.find?
      exact .inr (.inr ⟨C.hoisted d, List.mem_map_of_mem hmem, hrec hl d hd⟩)

/-- A parameter that is used in the body of `l`. -/
theorem Inside.address?_mention (hid : Identified C.root.walk) {p : Parameter}
    {es : List (Event Value)} (hin : Inside C.root (l :: outer) (.mention p :: es)) :
    ((C.scope l outer unit).address? p.id).isSome = true ↔ Declared (l :: outer) p.id :=
  ⟨C.declared_of_address? hid hin.around, fun h =>
    C.address?_of_declared h fun hl _ hd => hin.recorded_mention hid hl hd⟩

/-- A parameter that is free in a tree quoted in the body of `l`. -/
theorem Inside.address?_quote (hid : Identified C.root.walk) {p : Parameter} {x : Tree}
    (hin : Inside C.root (l :: outer) (.enterQuote :: x.walk ++ [.leaveQuote]))
    (hp : p ∈ x.freeParameters) :
    ((C.scope l outer unit).address? p.id).isSome = true ↔ Declared (l :: outer) p.id := by
  refine ⟨C.declared_of_address? hid hin.around, fun h => C.address?_of_declared h ?_⟩
  intro hl d hd
  exact hin.recorded_quote hid hp (by rw [List.find?_cons, hl, hd])

end Addresses

/-! ## Steps of a compilation

A step goes through some leaves of the tree. `Settles` says what the outcome of a step tells about
them, and combines along the order in which the emitter goes through a tree. -/

/-- A step inside the lambdas `chain`, which goes through the leaves `xs`. -/
structure Settles (chain : List (Lambda Value)) (xs : List (Leaf Value)) {β : Type}
    (x : Emit β) : Prop where
  /-- After a success all uses are declared, up to those that are skipped. -/
  declared : ∀ {s r u}, x s = .ok r → .use u ∈ xs → u.isBound = false → u.isSkipped = false →
    Declared chain u.parameter.id
  /-- A scope error is due to a use that is not declared. -/
  undeclared : ∀ {s name}, x s = .error (.parameterOutOfScope name) →
    ∃ u, .use u ∈ xs ∧ u.isBound = false ∧ ¬Declared chain u.parameter.id

namespace Settles

variable {chain : List (Lambda Value)} {xs ys : List (Leaf Value)} {β γ : Type} {x : Emit β}

theorem pure (a : β) : Settles chain [] (Pure.pure a : Emit β) := ⟨by simp, nofun⟩

/-- A step that only looks at the state and changes it. -/
theorem state (f : EmitState → β × EmitState) : Settles chain [] (modifyGet f : Emit β) :=
  ⟨by simp, nofun⟩

/-- A step that fails for another reason. -/
theorem refuse {e : CompileError} (he : ∀ name, e ≠ .parameterOutOfScope name) :
    Settles chain xs (throw e : Emit β) :=
  ⟨nofun, fun h => absurd (Except.error.inj h) (he _)⟩

theorem unsupported (kind : Kind) (reason : String) :
    Settles chain xs (Emit.unsupported kind reason : Emit β) := refuse (by simp)

theorem mismatched (kind : Kind) : Settles chain xs (Emit.mismatched kind : Emit β) :=
  refuse (by simp)

theorem bind {f : β → Emit γ} (hx : Settles chain xs x) (hf : ∀ a, Settles chain ys (f a)) :
    Settles chain (xs ++ ys) (x >>= f) := by
  constructor
  · intro s r u h hu hb hs
    obtain ⟨a, s₁, ha, hr⟩ := Emit.bind_eq_ok.mp h
    rcases List.mem_append.mp hu with hu | hu
    · exact hx.declared ha hu hb hs
    · exact (hf a).declared hr hu hb hs
  · intro s name h
    -- the first step fails, or the second one does
    cases hs : x s with
    | error e =>
        have he : (x >>= f) s = .error e := by
          show StateT.bind x f s = _
          rw [StateT.bind, hs]
          rfl
        obtain rfl : e = .parameterOutOfScope name := Except.error.inj (he.symm.trans h)
        obtain ⟨u, hu, hrest⟩ := hx.undeclared hs
        exact ⟨u, List.mem_append_left _ hu, hrest⟩
    | ok p =>
        have hp : (x >>= f) s = f p.1 p.2 := by
          show StateT.bind x f s = _
          rw [StateT.bind, hs]
          rfl
        obtain ⟨u, hu, hrest⟩ := (hf p.1).undeclared (hp.symm.trans h)
        exact ⟨u, List.mem_append_right _ hu, hrest⟩

/-- A step without leaves before another step. -/
theorem after {f : β → Emit γ} (hx : Settles chain [] x) (hf : ∀ a, Settles chain ys (f a)) :
    Settles chain ys (x >>= f) := hx.bind hf

/-- A step without leaves after another step. -/
theorem andThen {f : β → Emit γ} (hx : Settles chain xs x) (hf : ∀ a, Settles chain [] (f a)) :
    Settles chain xs (x >>= f) := by
  have h := hx.bind hf
  rwa [List.append_nil] at h

theorem map {f : β → γ} (hx : Settles chain xs x) :
    Settles chain xs (do return f (← x) : Emit γ) := hx.andThen fun _ => .pure _

theorem of_map {f : β → γ} (h : Settles chain xs (do return f (← x) : Emit γ)) :
    Settles chain xs x := by
  constructor
  · intro s r u hr
    exact h.declared (Emit.map_eq_ok.mpr ⟨r.1, hr, rfl⟩)
  · intro s name hr
    have hmap : (do return f (← x) : Emit γ) s = .error (.parameterOutOfScope name) := by
      show StateT.bind x _ s = _
      rw [StateT.bind, hr]
      rfl
    exact h.undeclared hmap

theorem map₂ {δ : Type} {y : Emit γ} {f : β → γ → δ} (hx : Settles chain xs x)
    (hy : Settles chain ys y) :
    Settles chain (xs ++ ys) (do
      let a ← x
      let b ← y
      return f a b : Emit δ) := hx.bind fun _ => hy.map

/-- The order of the leaves does not matter. -/
theorem swap (h : Settles chain (xs ++ ys) x) : Settles chain (ys ++ xs) x := by
  have hmem : ∀ {u}, Leaf.use u ∈ ys ++ xs ↔ Leaf.use u ∈ xs ++ ys := by simp [or_comm]
  refine ⟨fun hr hu => h.declared hr (hmem.mp hu), fun hr => ?_⟩
  obtain ⟨u, hu, hrest⟩ := h.undeclared hr
  exact ⟨u, hmem.mpr hu, hrest⟩

/-- Leaves that are skipped do not count. -/
theorem skip (h : Settles chain xs x) : Settles chain (ys.map Leaf.skip ++ xs) x := by
  constructor
  · intro s r u hr hu hb hs
    rcases List.mem_append.mp hu with hu | hu
    · obtain ⟨y, -, hy⟩ := List.mem_map.mp hu
      cases y with
      | constant v => cases hy
      | use u' =>
          obtain rfl := Leaf.use.inj hy
          cases hs
    · exact h.declared hr hu hb hs
  · intro s name hr
    obtain ⟨u, hu, hrest⟩ := h.undeclared hr
    exact ⟨u, List.mem_append_right _ hu, hrest⟩

/-- A step that skips all its leaves. -/
theorem skipped (h : Settles chain [] x) : Settles chain (ys.map Leaf.skip) x := by
  have hs : Settles chain (ys.map Leaf.skip ++ []) x := h.skip
  rwa [List.append_nil] at hs

/-- What is settled inside a lambda is settled outside of it. -/
theorem under {l : Lambda Value} (h : Settles (l :: chain) xs x) :
    Settles chain (xs.map (Leaf.under l.params)) x := by
  constructor
  · intro s r u hr hu hb hs
    obtain ⟨y, hy, heq⟩ := List.mem_map.mp hu
    cases y with
    | constant v => cases heq
    | use u' =>
        -- the use is not bound outside, so the lambda does not declare its parameter
        obtain rfl := Leaf.use.inj heq
        simp only [Bool.or_eq_false_iff] at hb
        have hl : l.declares u'.parameter.id = false := hb.2
        exact (declared_cons.mp (h.declared hr hy hb.1 hs)).resolve_left (by simp [hl])
  · intro s name hr
    obtain ⟨u, hu, hb, hnot⟩ := h.undeclared hr
    rw [declared_cons, not_or] at hnot
    have hl : l.params.any (·.id == u.parameter.id) = false := Bool.eq_false_iff.mpr hnot.1
    exact ⟨_, List.mem_map_of_mem hu, by simp [hb, hl], hnot.2⟩

/-- The address of a parameter is looked up. -/
theorem resolve {scope : EmitScope} {p : Parameter} (isTarget : Bool)
    (h : (scope.address? p.id).isSome = true ↔ Declared chain p.id) :
    Settles chain [.use { parameter := p, isTarget := isTarget }]
      (liftM (scope.resolve p) : Emit Address) := by
  constructor
  · intro s r u hr hu _ _
    obtain rfl := Leaf.use.inj (List.mem_singleton.mp hu)
    obtain ⟨a, ha, -⟩ := EmitScope.resolve_eq_ok.mp hr
    exact h.mp (by simp [ha])
  · intro s name hr
    refine ⟨_, List.mem_singleton_self _, rfl, fun hdec => ?_⟩
    obtain ⟨a, ha⟩ := Option.isSome_iff_exists.mp (h.mpr hdec)
    have hok := (EmitScope.resolve_eq_ok (s := s)).mpr ⟨a, ha, rfl⟩
    rw [hr] at hok
    cases hok

/-- A quote looks up everything that is free in its tree. -/
theorem quote {scope : EmitScope} {t : Tree}
    (h : ∀ p ∈ t.freeParameters, (scope.address? p.id).isSome = true ↔ Declared chain p.id) :
    Settles chain t.leaves (emitQuote scope t) := by
  unfold emitQuote
  cases hf : t.freeParameters.find? fun p => (scope.address? p.id).isNone with
  | some p =>
      refine ⟨nofun, fun _ => ?_⟩
      have hp := List.mem_of_find?_eq_some hf
      have hnone : scope.address? p.id = none := by simpa using List.find?_some hf
      obtain ⟨q, hq, hid⟩ := Node.mem_freeParameters.mp ⟨p, hp, rfl⟩
      obtain ⟨u, hu, hb, rfl⟩ := mem_freeOf.mp hq
      refine ⟨u, hu, hb, ?_⟩
      rw [hid, ← h p hp, hnone]
      simp
  | none =>
      refine ⟨fun _ hu hb _ => ?_, nofun⟩
      obtain ⟨p, hp, hid⟩ := Node.mem_freeParameters.mpr ⟨_, mem_freeOf.mpr ⟨_, hu, hb, rfl⟩, rfl⟩
      have hsome := List.find?_eq_none.mp hf p hp
      rw [← hid, ← h p hp]
      simpa [Option.isSome_iff_ne_none] using hsome

end Settles

/-! ## The emitter

The induction follows the emitter. A place of the tree is known by the lambdas around it, and these
determine what its code can address. -/

section Emitter

variable {C : Compilation} {chain : List (Lambda Value)}

theorem emitConstant_settles (v : Value) : Settles chain [.constant v] (emitConstant v) := by
  refine ⟨by simp, fun h => ?_⟩
  unfold emitConstant at h
  split at h <;> cases h

theorem emitDefault_settles (schema : Schema) (ty : Ty) :
    Settles chain [] (emitDefault schema ty) := by
  unfold emitDefault
  split
  · exact .pure _
  · exact .pure _
  · split
    · exact .pure _
    · exact .unsupported _ _

theorem unaryOperator_settles (kind : Kind) (ty : Ty) :
    Settles chain [] (unaryOperator kind ty) := by
  unfold unaryOperator
  split
  · exact .pure _
  · exact .unsupported _ _

theorem binaryOperator_settles (kind : Kind) (ty : Ty) :
    Settles chain [] (binaryOperator kind ty) := by
  unfold binaryOperator
  split
  · exact .pure _
  · exact .unsupported _ _

theorem truthTest_settles (schema : Schema) (kind : Kind) (ty : Ty) :
    Settles chain [] (truthTest schema kind ty) := by
  unfold truthTest
  split
  · exact .pure _
  · exact .refuse (by simp)

theorem checkWritable_settles (m : Member) : Settles chain [] (checkWritable m) := by
  unfold checkWritable
  split
  · exact .unsupported _ _
  · exact .pure _

theorem checkInstance_settles (m : Method) : Settles chain [] (checkInstance m) := by
  unfold checkInstance
  split
  · exact .unsupported _ _
  · exact .pure _

/-- A node with one operand goes through the leaves of the operand, whatever its kind. -/
theorem Payload.emit_unary_settles {cx : EmitContext} {scope : EmitScope} {kind : Kind} (ty : Ty)
    {x : Tree} (method : Option Method) (lifted : Bool) (hq : kind ≠ .quote)
    (hx : Settles chain x.leaves (x.emit cx scope)) :
    Settles chain x.leaves (Payload.emit cx scope kind ty (.unary x method lifted)) := by
  by_cases hc : kind = .convert ∨ kind = .convertChecked
  · rw [Payload.emit_conversion hc]
    refine hx.andThen fun _ => ?_
    split
    · exact .pure _
    · split
      · exact .pure _
      · exact .unsupported _ _
  simp only [Payload.emit]
  split
  · exact absurd rfl hq
  · exact absurd (.inl rfl) hc
  · exact absurd (.inr rfl) hc
  · split
    · exact hx.map
    · exact .unsupported _ _
  · split
    · split
      · exact hx.map
      · exact (unaryOperator_settles _ _).after fun _ => hx.map
    · exact .mismatched _

/-- A node with two operands goes through their leaves, unless it coalesces. -/
theorem Payload.emit_binary_settles {cx : EmitContext} {scope : EmitScope} {kind : Kind} (ty : Ty)
    {l r : Tree} (method : Option Method) (lifted toNull : Bool)
    (conversion : Option (Lambda Value)) (hc : kind ≠ .coalesce)
    (hl : Settles chain l.leaves (l.emit cx scope))
    (hr : Settles chain r.leaves (r.emit cx scope)) :
    Settles chain (l.leaves ++ r.leaves)
      (Payload.emit cx scope kind ty (.binary l r method lifted toNull conversion)) := by
  by_cases hlogical : kind = .andAlso ∨ kind = .orElse
  · rw [Payload.emit_logical hlogical]
    split
    · exact hl.map₂ hr
    · exact (truthTest_settles _ _ _).after fun _ => hl.map₂ hr
  by_cases hi : kind = .arrayIndex
  · subst hi
    exact hl.map₂ hr
  by_cases hk : kind.isBinary = true
  · rw [Payload.emit_strict hc hlogical hi hk]
    cases method with
    | some m => exact hl.map₂ hr
    | none =>
        dsimp only
        by_cases hb : (lifted && (kind = .and || kind = .or) && l.ty.nonNullable.isBool) = true
        · rw [if_pos hb]
          exact hl.map₂ hr
        · rw [if_neg hb]
          exact (binaryOperator_settles _ _).after fun _ => hl.map₂ hr
  · have hmismatched : Payload.emit cx scope kind ty (.binary l r method lifted toNull conversion)
        = Emit.mismatched kind := by
      unfold Payload.emit
      split <;> first | (exfalso; simp_all [Kind.isBinary]; done) | exact if_neg hk
    rw [hmismatched]
    exact .mismatched _

/-- A lambda settles for the lambdas around it what its body settles inside it. -/
theorem Lambda.emit_settles_of_body {cx : EmitContext} {parent : Option EmitScope}
    {l : Lambda Value}
    (h : ∀ unit, Settles (l :: chain) l.body.leaves
      (l.body.emit cx (l.emitScope cx.captures parent unit))) :
    Settles chain l.leaves (l.emit cx parent) := by
  obtain ⟨id, name, params, body⟩ := l
  simp only [Lambda.emit]
  refine Settles.after (.state _) fun index => Settles.after (.state _) fun _ => ?_
  refine (h index).under.andThen fun code => ?_
  exact Settles.after (.state _) fun _ => Settles.after (.state _) fun _ => .pure _

mutual

theorem Node.emit_settles (hid : Identified C.root.walk) : (n : Tree) → {l : Lambda Value} →
    {outer : List (Lambda Value)} → (unit : Nat) → Inside C.root (l :: outer) n.walk →
    Settles (l :: outer) n.leaves (n.emit C.context (C.scope l outer unit))
  | .mk _ kind ty payload, _, _, unit, hin =>
      Payload.emit_settles hid kind ty payload unit hin.payload
termination_by structural n => n

theorem Payload.emit_settles (hid : Identified C.root.walk) (kind : Kind) (ty : Ty) :
    (payload : Payload Value) → {l : Lambda Value} → {outer : List (Lambda Value)} →
    (unit : Nat) → Inside C.root (l :: outer) (payload.walk kind) →
    Settles (l :: outer) (payload.leaves kind)
      (payload.emit C.context (C.scope l outer unit) kind ty)
  | .constant v, _, _, _, _ => by
      simp only [Payload.emit]
      split
      · exact emitConstant_settles v
      · exact .mismatched _
  | .parameter p, _, _, _, hin => by
      simp only [Payload.emit]
      split
      · exact (Settles.resolve false (hin.address?_mention hid)).map
      · exact .mismatched _
  | .unary x method lifted, _, _, unit, hin => by
      by_cases hq : kind = .quote
      · subst hq
        exact .quote fun p hp => Inside.address?_quote hid hin hp
      · rw [Payload.walk, if_neg hq] at hin
        exact Payload.emit_unary_settles ty method lifted hq (x.emit_settles hid unit hin)
  | .binary l r method lifted toNull none, _, _, unit, hin => by
      have hl := l.emit_settles hid unit (hin.left l.walk_balanced)
      have hr := r.emit_settles hid unit (hin.right l.walk_balanced)
      by_cases hc : kind = .coalesce
      · subst hc
        exact hl.map₂ hr
      · exact Payload.emit_binary_settles ty method lifted toNull none hc hl hr
  | .binary l r method lifted toNull (some c), _, _, unit, hin => by
      have hrest := hin.right l.walk_balanced
      have hl := l.emit_settles hid unit (hin.left l.walk_balanced)
      have hr := r.emit_settles hid unit (hrest.left r.walk_balanced)
      by_cases hc : kind = .coalesce
      · subst hc
        have hconv := c.emit_settles hid unit (hrest.right r.walk_balanced)
        exact hl.bind fun _ => hr.map₂ hconv
      · have h := Payload.emit_binary_settles ty method lifted toNull (some c) hc hl hr
        rw [Payload.leaves, if_neg hc, ← List.append_assoc]
        exact h.skip.swap
  | .conditional t a b, _, _, unit, hin => by
      have hrest := hin.right t.walk_balanced
      have ht := t.emit_settles hid unit (hin.left t.walk_balanced)
      have ha := a.emit_settles hid unit (hrest.left a.walk_balanced)
      have hb := b.emit_settles hid unit (hrest.right a.walk_balanced)
      simp only [Payload.emit]
      split
      · exact ht.bind fun _ => ha.map₂ hb
      · exact .mismatched _
  | .memberAccess none m, _, _, _, _ => by
      simp only [Payload.emit]
      split
      · split
        · exact .pure _
        · exact .unsupported _ _
      · exact .mismatched _
  | .memberAccess (some x) m, _, _, unit, hin => by
      simp only [Payload.emit, Payload.leaves]
      split
      · split
        · exact .skipped (.pure _)
        · exact .mismatched _
      · split
        · exact (x.emit_settles hid unit hin).map
        · exact .mismatched _
  | .call none m args, _, _, unit, hin => by
      simp only [Payload.emit]
      split
      · split
        · exact (Node.emitAll_settles hid args unit hin).map
        · exact .unsupported _ _
      · exact .mismatched _
  | .call (some x) m args, _, _, unit, hin => by
      have hargs := Node.emitAll_settles hid args unit (hin.right x.walk_balanced)
      simp only [Payload.emit, Payload.leaves]
      split
      · split
        · exact hargs.map.skip
        · exact .mismatched _
      · split
        · exact (x.emit_settles hid unit (hin.left x.walk_balanced)).map₂ hargs
        · exact .mismatched _
  | .new (some _) args, _, _, unit, hin => by
      simp only [Payload.emit]
      split
      · exact (Node.emitAll_settles hid args unit hin).map
      · exact .mismatched _
  | .new none args, _, _, _, _ => by
      simp only [Payload.emit, Payload.leaves]
      split
      · exact .skipped (emitDefault_settles _ _)
      · exact .mismatched _
  | .newArray items, _, _, unit, hin => by
      have hitems := Node.emitAll_settles hid items unit hin
      unfold Payload.emit
      split
      · exact hitems.map
      · split
        case h_1 x =>
          split
          · exact (Settles.of_map (f := fun code => [code]) hitems).map
          · exact .unsupported _ _
        case h_2 => exact .unsupported _ _
      · exact .mismatched _
  | .listInit x inits, _, _, unit, hin => by
      have hx := x.emit_settles hid unit (hin.left x.walk_balanced)
      simp only [Payload.emit]
      split
      · refine hx.bind fun _ => Settles.after (.state _) fun slot => ?_
        exact (ElementInit.emitAll_settles hid inits unit slot (hin.right x.walk_balanced)).map
      · exact .mismatched _
  | .memberInit x bindings, _, _, unit, hin => by
      have hx := x.emit_settles hid unit (hin.left x.walk_balanced)
      simp only [Payload.emit]
      split
      · refine hx.bind fun _ => Settles.after (.state _) fun slot => ?_
        exact (MemberBinding.emitAll_settles hid bindings unit slot
          (hin.right x.walk_balanced)).map
      · exact .mismatched _
  | .lambda l, _, _, unit, hin => by
      simp only [Payload.emit]
      split
      · exact (l.emit_settles hid unit hin).map
      · exact .mismatched _
  | .invoke x args, _, _, unit, hin => by
      have hx := x.emit_settles hid unit (hin.left x.walk_balanced)
      have hargs := Node.emitAll_settles hid args unit (hin.right x.walk_balanced)
      simp only [Payload.emit]
      split
      · exact hx.map₂ hargs
      · exact .mismatched _
  | .typeIs x _, _, _, unit, hin => by
      simp only [Payload.emit]
      split
      · exact (x.emit_settles hid unit hin).map
      · exact .mismatched _
  | .assign p x, _, _, unit, hin => by
      have hb : Balanced [(.mention p : Event Value)] := .mention p .nil
      have hx := x.emit_settles hid unit (Inside.right hin hb)
      have hp := Settles.resolve true (@Inside.address?_mention C _ _ unit hid _ _ hin)
      simp only [Payload.emit]
      split
      · exact (hx.bind fun _ => hp.map).swap
      · exact .mismatched _
  | .block items, _, _, unit, hin => by
      simp only [Payload.emit]
      split
      · exact (Node.emitAll_settles hid items unit hin).map
      · exact .mismatched _
termination_by structural payload => payload

theorem Lambda.emit_settles (hid : Identified C.root.walk) : (l : Lambda Value) →
    {d : Lambda Value} → {outer : List (Lambda Value)} → (unit : Nat) →
    Inside C.root (d :: outer) l.walk →
    Settles (d :: outer) l.leaves (l.emit C.context (some (C.scope d outer unit)))
  | .mk _ _ _ body, _, _, _, hin =>
      Lambda.emit_settles_of_body fun inner => body.emit_settles hid inner hin.body
termination_by structural l => l

theorem Node.emitAll_settles (hid : Identified C.root.walk) : (ns : List Tree) →
    {l : Lambda Value} → {outer : List (Lambda Value)} → (unit : Nat) →
    Inside C.root (l :: outer) (Node.walkAll ns) →
    Settles (l :: outer) (Node.leavesAll ns) (Node.emitAll C.context (C.scope l outer unit) ns)
  | [], _, _, _, _ => .pure _
  | n :: ns, _, _, unit, hin =>
      (n.emit_settles hid unit (hin.left n.walk_balanced)).map₂
        (Node.emitAll_settles hid ns unit (hin.right n.walk_balanced))
termination_by structural ns => ns

theorem ElementInit.emitAll_settles (hid : Identified C.root.walk) :
    (inits : List (ElementInit Value)) → {l : Lambda Value} → {outer : List (Lambda Value)} →
    (unit slot : Nat) → Inside C.root (l :: outer) (ElementInit.walkAll inits) →
    Settles (l :: outer) (ElementInit.leavesAll inits)
      (ElementInit.emitAll C.context (C.scope l outer unit) slot inits)
  | [], _, _, _, _, _ => .pure _
  | .mk add args :: rest, _, _, unit, slot, hin => by
      have hb := Node.walkAll_balanced args
      have hargs := Node.emitAll_settles hid args unit (hin.left hb)
      have hrest := ElementInit.emitAll_settles hid rest unit slot (hin.right hb)
      exact (checkInstance_settles add).after fun _ => hargs.map₂ hrest
termination_by structural inits => inits

theorem MemberBinding.emitAll_settles (hid : Identified C.root.walk) :
    (bindings : List (MemberBinding Value)) → {l : Lambda Value} →
    {outer : List (Lambda Value)} → (unit slot : Nat) →
    Inside C.root (l :: outer) (MemberBinding.walkAll bindings) →
    Settles (l :: outer) (MemberBinding.leavesAll bindings)
      (MemberBinding.emitAll C.context (C.scope l outer unit) slot bindings)
  | [], _, _, _, _, _ => .pure _
  | .assign m x :: rest, _, _, unit, slot, hin => by
      have hx := x.emit_settles hid unit (hin.left x.walk_balanced)
      have hrest := MemberBinding.emitAll_settles hid rest unit slot (hin.right x.walk_balanced)
      exact (checkWritable_settles m).after fun _ => hx.map₂ hrest
  | .bind m nested :: rest, _, _, unit, slot, hin => by
      have hb := MemberBinding.walkAll_balanced nested
      have hrest := MemberBinding.emitAll_settles hid rest unit slot (hin.right hb)
      exact Settles.after (.state _) fun inner =>
        (MemberBinding.emitAll_settles hid nested unit inner (hin.left hb)).map₂ hrest
  | .list m inits :: rest, _, _, unit, slot, hin => by
      have hb := ElementInit.walkAll_balanced inits
      have hrest := MemberBinding.emitAll_settles hid rest unit slot (hin.right hb)
      exact Settles.after (.state _) fun inner =>
        (ElementInit.emitAll_settles hid inits unit inner (hin.left hb)).map₂ hrest
termination_by structural bindings => bindings

end

/-- The root lambda stands inside nothing. -/
theorem Compilation.emit_settles (C : Compilation) (hid : Identified C.root.walk) :
    Settles [] C.root.leaves (C.root.emit C.context none) :=
  Lambda.emit_settles_of_body fun unit =>
    C.root.body.emit_settles hid unit (Inside.whole C.root).body

end Emitter

/-! ## Programs -/

section Programs

variable {schema : Schema} {options : Options} {root : Lambda Value}

/-- A scope error has a reason: a parameter that is free in the root lambda. -/
theorem Lambda.free_of_scope_error (hid : Identified root.walk) {name : String}
    (h : Program.ofLambda schema options root = .error (.parameterOutOfScope name)) :
    freeOf root.leaves ≠ [] := by
  have hsettles := Compilation.emit_settles ⟨schema, root, ⟨.empty, .empty, options⟩⟩ hid
  obtain ⟨u, hu, hb, -⟩ := hsettles.undeclared (Program.emit_error_of_ofLambda h)
  exact List.ne_nil_of_mem (mem_freeOf.mpr ⟨u, hu, hb, rfl⟩)

/-- What is free in a compiled root lambda is skipped. -/
theorem Lambda.skipped_of_free (hid : Identified root.walk) {p : Program}
    (h : Program.ofLambda schema options root = .ok p) {u : Use} (hu : .use u ∈ root.leaves)
    (hb : u.isBound = false) : u.isSkipped = true := by
  have hsettles := Compilation.emit_settles ⟨schema, root, p⟩ hid
  obtain ⟨r, hr⟩ := Program.emit_of_ofLambda h
  cases hs : u.isSkipped with
  | true => rfl
  | false => exact absurd (hsettles.declared hr hu hb hs) (not_declared_nil _)

end Programs

/-- **Scope errors are found at compile time, and only there.** A tree without free parameters is
never refused for a parameter that is out of scope. A tree that compiles uses free parameters only
in the parts that are skipped: the target of a static member or method, the arguments of a default
value, and a conversion where nothing is coalesced. -/
theorem compile_scope_errors {tree : Tree} (hid : Identified tree.walk) (schema : Schema)
    (options : Options) :
    (tree.freeParameters = [] →
      ∀ name, Program.compile schema options tree ≠ .error (.parameterOutOfScope name)) ∧
    ∀ p, Program.compile schema options tree = .ok p →
      ∀ u, .use u ∈ tree.leaves → u.isBound = false → u.isSkipped = true := by
  unfold Program.compile
  cases hroot : tree.lambda? with
  | none => exact ⟨fun _ _ => nofun, nofun⟩
  | some root =>
      obtain ⟨id, kind, ty, rfl⟩ := Node.lambda?_eq_some hroot
      have hid' : Identified root.walk := fun l l' hl hl' =>
        hid l l' (List.mem_cons_of_mem _ hl) (List.mem_cons_of_mem _ hl')
      constructor
      · intro hfree name herror
        exact Lambda.free_of_scope_error hid' herror (Node.freeParameters_eq_nil.mp hfree)
      · intro p hp u hu hb
        exact Lambda.skipped_of_free hid' hp hu hb

/-- `x ↦ (y ↦ x + y)`. -/
def Node.addOuter : Tree :=
  let x : Parameter := ⟨0, "x", .int .i8⟩
  let y : Parameter := ⟨1, "y", .int .i8⟩
  .ofLambda 0 (.mk 1 none [x] (.ofLambda 2 (.mk 3 none [y]
    (.binary 4 .add (.parameter 5 x) (.parameter 6 y)))))

/-- `x ↦ (y ↦ z.s)`, where `s` is static and nothing declares `z`. -/
def Node.staticOfFree : Tree :=
  let x : Parameter := ⟨0, "x", .int .i8⟩
  let y : Parameter := ⟨1, "y", .int .i8⟩
  let z : Parameter := ⟨2, "z", .int .i8⟩
  .ofLambda 0 (.mk 1 none [x] (.ofLambda 2 (.mk 3 none [y]
    (.memberAccess 4 (some (.parameter 5 z)) (.static "s" (.int .i8) 0)))))

theorem compile_scope_errors_nested :
    (Node.addOuter.freeParameters = [] ∧
      ∀ name, Program.compile .empty {} Node.addOuter ≠ .error (.parameterOutOfScope name)) ∧
    Node.staticOfFree.freeParameters = [⟨2, "z", .int .i8⟩] ∧
    ∃ p, Program.compile .empty {} Node.staticOfFree = .ok p ∧
      ∀ u, .use u ∈ Node.staticOfFree.leaves → u.isBound = false → u.isSkipped = true := by
  refine ⟨⟨rfl, ?_⟩, rfl, _, rfl, ?_⟩
  · exact (compile_scope_errors (.ofNodup (by decide)) .empty {}).1 rfl
  · exact (compile_scope_errors (.ofNodup (by decide)) .empty {}).2 _ rfl

end ExprTree
