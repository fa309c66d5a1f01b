import ExprTree.Proofs.Scoping
import ExprTree.Proofs.Sessions

set_option autoImplicit false

/-! # What a quote leaves of its tree

A quote replaces parameters of its tree by the values that they have when it is evaluated. Which
leaves it replaces is decided by the parameter alone. So there are two ways in which the result may
differ from the tree with its free reads replaced:

* a read that a lambda of the tree binds is replaced too, if the same parameter is free somewhere
  else in the tree (`isolate_leaves_iff`);
* an assignment to a free parameter stays, and so does the parameter (`quote_freeParameters`).
-/

namespace ExprTree

/-! ## Current values -/

/-- The value that a parameter has in a frame that runs in `s` with the cells `own`. -/
def World.current? (w : World) (s : Scope) (own : Option Nat) (p : Nat) : Option Value :=
  (s.find? own p).bind fun (cells, position) => w.cell? cells position

section Capture

variable {w : World} {s : Scope} {own : Option Nat} {ps : List Parameter}
  {values : Substitution Value}

theorem World.captureAll?_cons {p : Parameter}
    (h : w.captureAll? s own (p :: ps) = some values) :
    ∃ v rest, w.current? s own p.id = some v ∧ w.captureAll? s own ps = some rest ∧
      values = (p.id, v) :: rest := by
  simp only [World.captureAll?, Option.bind_eq_bind, Option.bind_eq_some_iff] at h
  obtain ⟨⟨cells, position⟩, hfind, v, hv, rest, hrest, heq⟩ := h
  exact ⟨v, rest, by simp [World.current?, hfind, hv], hrest, (Option.some.inj heq).symm⟩

/-- All parameters that are captured have a value. -/
theorem World.current?_of_captureAll? (h : w.captureAll? s own ps = some values) :
    ∀ p ∈ ps, (w.current? s own p.id).isSome = true := by
  induction ps generalizing values with
  | nil => simp
  | cons p ps ih =>
      obtain ⟨v, rest, hv, hrest, -⟩ := World.captureAll?_cons h
      intro q hq
      rcases List.mem_cons.mp hq with rfl | hq
      · simp [hv]
      · exact ih hrest q hq

/-- Parameters that all have a value can be captured. -/
theorem World.captureAll?_of_current? (h : ∀ p ∈ ps, (w.current? s own p.id).isSome = true) :
    ∃ values, w.captureAll? s own ps = some values := by
  induction ps with
  | nil => exact ⟨[], rfl⟩
  | cons p ps ih =>
      obtain ⟨rest, hrest⟩ := ih fun q hq => h q (List.mem_cons_of_mem p hq)
      obtain ⟨v, hv⟩ := Option.isSome_iff_exists.mp (h p List.mem_cons_self)
      obtain ⟨⟨cells, position⟩, hfind, hcell⟩ := Option.bind_eq_some_iff.mp hv
      refine ⟨(p.id, v) :: rest, ?_⟩
      simp only [World.captureAll?, hfind, hcell, hrest, Option.bind_eq_bind, Option.bind_some,
        Option.pure_def]

/-- What is captured is the current value, of these parameters only. -/
theorem World.lookup_captureAll? (h : w.captureAll? s own ps = some values) (x : Nat) :
    values.lookup x = if ps.any (·.id == x) then w.current? s own x else none := by
  induction ps generalizing values with
  | nil =>
      obtain rfl : [] = values := Option.some.inj h
      rfl
  | cons p ps ih =>
      obtain ⟨v, rest, hv, hrest, rfl⟩ := World.captureAll?_cons h
      rw [List.lookup_cons, List.any_cons, ih hrest]
      by_cases hx : p.id = x
      · subst hx
        simp [hv]
      · have hne : (p.id == x) = false := by simpa using hx
        have hne' : (x == p.id) = false := by simpa using fun heq => hx heq.symm
        simp [hne, hne']

end Capture

/-! ## Isolated trees -/

/-- The leaf, after the reads that are chosen became constants of the current values. -/
def Leaf.pin (current : Nat → Option Value) (chosen : Use → Bool) : Leaf Value → Leaf Value
  | .constant v => .constant v
  | .use u =>
      if !u.isTarget && chosen u then (current u.parameter.id).elim (.use u) .constant else .use u

/-- Whether the parameter is free somewhere in the tree. -/
def Node.hasFree (tree : Tree) (p : Nat) : Bool := tree.freeParameters.any (·.id == p)

theorem Node.hasFree_iff {tree : Tree} {p : Nat} :
    tree.hasFree p = true ↔
      ∃ u, .use u ∈ tree.leaves ∧ u.isBound = false ∧ u.parameter.id = p := by
  have hany : tree.hasFree p = true ↔ ∃ q ∈ tree.freeParameters, q.id = p := by
    simp [Node.hasFree, List.any_eq_true]
  rw [hany, Node.mem_freeParameters]
  constructor
  · rintro ⟨q, hq, rfl⟩
    obtain ⟨u, hu, hb, rfl⟩ := mem_freeOf.mp hq
    exact ⟨u, hu, hb, rfl⟩
  · rintro ⟨u, hu, hb, rfl⟩
    exact ⟨u.parameter, mem_freeOf.mpr ⟨u, hu, hb, rfl⟩, rfl⟩

theorem Node.freeParameters_eq_nil_iff_hasFree {tree : Tree} :
    tree.freeParameters = [] ↔ ∀ p, tree.hasFree p = false := by
  constructor
  · intro h p
    rw [Node.hasFree, h]
    rfl
  · intro h
    refine List.eq_nil_iff_forall_not_mem.mpr fun q hq => ?_
    have hq' : tree.hasFree q.id = true := List.any_eq_true.mpr ⟨q, hq, beq_self_eq_true _⟩
    rw [h] at hq'
    cases hq'

section Isolate

variable {w w' : World} {s : Scope} {own : Option Nat} {tree t : Tree}

theorem World.isolate_eq_ok (h : w.isolate s own tree = .ok (t, w')) :
    ∃ values, w.captureAll? s own tree.freeParameters = some values ∧
      t = (tree.substitute values w.heap.nextId).1 := by
  unfold World.isolate at h
  cases hv : w.captureAll? s own tree.freeParameters with
  | none =>
      rw [hv] at h
      cases h
  | some values =>
      rw [hv] at h
      cases h
      exact ⟨values, rfl, rfl⟩

theorem World.isolate_of_captureAll? {values : Substitution Value}
    (h : w.captureAll? s own tree.freeParameters = some values) :
    ∃ w', w.isolate s own tree = .ok ((tree.substitute values w.heap.nextId).1, w') := by
  rw [World.isolate, h]
  exact ⟨_, rfl⟩

/-- The captured values of a tree are the current values of its free parameters. -/
theorem World.lookup_captured {values : Substitution Value}
    (h : w.captureAll? s own tree.freeParameters = some values) (p : Nat) :
    values.lookup p = if tree.hasFree p then w.current? s own p else none :=
  World.lookup_captureAll? h p

theorem World.current?_of_isolate (h : w.isolate s own tree = .ok (t, w')) {p : Nat}
    (hp : tree.hasFree p = true) : (w.current? s own p).isSome = true := by
  obtain ⟨values, hvalues, -⟩ := World.isolate_eq_ok h
  obtain ⟨q, hq, hid⟩ := List.any_eq_true.mp hp
  rw [← beq_iff_eq.mp hid]
  exact World.current?_of_captureAll? hvalues q hq

/-- A read is replaced if its parameter is free somewhere in the tree. -/
theorem World.leaves_isolate (h : w.isolate s own tree = .ok (t, w')) :
    t.leaves = tree.leaves.map
      (Leaf.pin (w.current? s own) fun u => tree.hasFree u.parameter.id) := by
  obtain ⟨values, hvalues, rfl⟩ := World.isolate_eq_ok h
  rw [Node.leaves_substitute]
  refine List.map_congr_left fun x _ => ?_
  cases x with
  | constant v => rfl
  | use u =>
      have hlookup := World.lookup_captured hvalues u.parameter.id
      cases ht : u.isTarget with
      | true => simp [Leaf.replace, Leaf.pin, ht]
      | false =>
          cases hf : tree.hasFree u.parameter.id with
          | true =>
              rw [if_pos hf] at hlookup
              cases hc : w.current? s own u.parameter.id <;>
                simp [Leaf.replace, Leaf.pin, ht, hf, hlookup, hc]
          | false =>
              rw [if_neg (Bool.eq_false_iff.mp hf)] at hlookup
              simp [Leaf.replace, Leaf.pin, ht, hf, hlookup]

/-- **Isolating a tree replaces its free reads, and may replace more.** Every parameter that is free
in the tree has a value, and every read of it becomes a constant of that value; no other leaf
changes. So the result is the tree with just its free reads replaced exactly if no lambda of the
tree binds a read of a parameter that is also free in the tree. -/
theorem isolate_leaves_iff (h : w.isolate s own tree = .ok (t, w')) :
    (∀ p, tree.hasFree p = true → (w.current? s own p).isSome = true) ∧
    t.leaves = tree.leaves.map
      (Leaf.pin (w.current? s own) fun u => tree.hasFree u.parameter.id) ∧
    (t.leaves = tree.leaves.map (Leaf.pin (w.current? s own) fun u => !u.isBound) ↔
      ∀ u, .use u ∈ tree.leaves → u.isTarget = false → u.isBound = true →
        tree.hasFree u.parameter.id = false) := by
  refine ⟨fun p hp => World.current?_of_isolate h hp, World.leaves_isolate h, ?_⟩
  rw [World.leaves_isolate h, List.map_inj_left]
  constructor
  · intro hsame u hu ht hb
    cases hf : tree.hasFree u.parameter.id with
    | false => rfl
    | true =>
        -- the read became a constant, but it should have stayed
        obtain ⟨v, hv⟩ := Option.isSome_iff_exists.mp (World.current?_of_isolate h hf)
        have heq := hsame _ hu
        simp [Leaf.pin, ht, hb, hf, hv] at heq
  · intro hbound x hx
    cases x with
    | constant v => rfl
    | use u =>
        cases ht : u.isTarget with
        | true => simp [Leaf.pin, ht]
        | false =>
            cases hb : u.isBound with
            | true => simp [Leaf.pin, ht, hb, hbound u hx ht hb]
            | false => simp [Leaf.pin, ht, hb, Node.hasFree_iff.mpr ⟨u, hx, hb, rfl⟩]

/-- `{ x; y ↦ x + y }`: the lambda binds `y`, which is not free. -/
def Node.readOuter : Tree :=
  let x : Parameter := ⟨0, "x", .int .i8⟩
  let y : Parameter := ⟨1, "y", .int .i8⟩
  .block 0 [.parameter 1 x, .ofLambda 2 (.mk 3 none [y]
    (.binary 4 .add (.parameter 5 x) (.parameter 6 y)))]

theorem Node.leaves_readOuter :
    let x : Parameter := ⟨0, "x", .int .i8⟩
    let y : Parameter := ⟨1, "y", .int .i8⟩
    Node.readOuter.leaves = [.use ⟨x, false, false, false⟩, .use ⟨x, false, false, false⟩,
      .use ⟨y, false, true, false⟩] := rfl

/-- `{ x; x ↦ x }`: the lambda binds `x`, which is free before it. -/
def Node.readShadowed : Tree :=
  let x : Parameter := ⟨0, "x", .int .i8⟩
  .block 0 [.parameter 1 x, .ofLambda 2 (.mk 3 none [x] (.parameter 4 x))]

/-- `x ↦ 'body`. -/
def Node.quoting (body : Tree) : Tree :=
  .ofLambda 7 (.mk 8 none [⟨0, "x", .int .i8⟩] (.quote 9 body))

/-- One frame, whose only cell holds 5. -/
def World.holdingFive : World := { cells := #[#[.ofInt .i8 5]], heap := { nextId := 10 } }

theorem isolate_leaves_iff_outer :
    ∃ p t w, Program.compile .empty {} (.quoting .readOuter) = .ok p ∧
      World.holdingFive.isolate (.root p 0) (some 0) .readOuter = .ok (t, w) ∧
      t.leaves = Node.readOuter.leaves.map
        (Leaf.pin (World.holdingFive.current? (.root p 0) (some 0)) fun u => !u.isBound) := by
  refine ⟨_, _, _, rfl, rfl, (isolate_leaves_iff rfl).2.2.mpr fun u hu _ hb => ?_⟩
  simp only [Node.leaves_readOuter, List.mem_cons, Leaf.use.injEq, List.not_mem_nil,
    or_false] at hu
  rcases hu with rfl | rfl | rfl
  · cases hb
  · cases hb
  · rfl

/-- A read that is bound in a quoted tree is replaced, so the lambda around it does not return its
argument any more. -/
theorem isolate_shadowed_read :
    let x : Parameter := ⟨0, "x", .int .i8⟩
    let e : Environment := ⟨.empty, Native.host .empty 0 #[], 1000, 0⟩
    Node.readShadowed.leaves = [.use ⟨x, false, false, false⟩, .use ⟨x, false, true, false⟩] ∧
    ∃ p t w l, Program.compile .empty {} (.quoting .readShadowed) = .ok p ∧
      World.holdingFive.isolate (.root p 0) (some 0) .readShadowed = .ok (t, w) ∧
      t.leaves = [.constant (.ofInt .i8 5), .constant (.ofInt .i8 5)] ∧
      .enter l ∈ t.walk ∧ l.params = [x] ∧
      (e.eval (.ofLambda 20 l) [.ofInt .i8 7] w).1 = .ok (.ofInt .i8 5) := by
  exact ⟨rfl, _, _, _, _, rfl, rfl, rfl, .tail _ (.tail _ (.tail _ (.head _))), rfl, rfl⟩

/-- What stays of the free uses are the assignments. -/
theorem World.free_use_isolate (h : w.isolate s own tree = .ok (t, w')) {u : Use}
    (hb : u.isBound = false) :
    .use u ∈ t.leaves ↔ .use u ∈ tree.leaves ∧ u.isTarget = true := by
  rw [World.leaves_isolate h, List.mem_map]
  constructor
  · rintro ⟨x, hx, heq⟩
    cases x with
    | constant v => cases heq
    | use u' =>
        cases ht : u'.isTarget with
        | true =>
            simp only [Leaf.pin, ht, Bool.not_true, Bool.false_and, Bool.false_eq_true, ↓reduceIte,
              Leaf.use.injEq] at heq
            exact heq ▸ ⟨hx, ht⟩
        | false =>
            cases hf : tree.hasFree u'.parameter.id with
            | true =>
                obtain ⟨v, hv⟩ := Option.isSome_iff_exists.mp (World.current?_of_isolate h hf)
                simp [Leaf.pin, ht, hf, hv] at heq
            | false =>
                -- a free read would be a free parameter of the tree
                simp only [Leaf.pin, ht, hf, Bool.and_false, Bool.false_eq_true, ↓reduceIte,
                  Leaf.use.injEq] at heq
                have hfree := Node.hasFree_iff.mpr ⟨u', hx, heq ▸ hb, rfl⟩
                rw [hf] at hfree
                cases hfree
  · rintro ⟨hu, ht⟩
    exact ⟨.use u, hu, by simp [Leaf.pin, ht]⟩

/-- The free parameters of an isolated tree are those that the tree assigns where they are free. -/
theorem World.hasFree_isolate (h : w.isolate s own tree = .ok (t, w')) {p : Nat} :
    t.hasFree p = true ↔
      ∃ u, .use u ∈ tree.leaves ∧ u.isTarget = true ∧ u.isBound = false ∧ u.parameter.id = p := by
  rw [Node.hasFree_iff]
  constructor
  · rintro ⟨u, hu, hb, hp⟩
    obtain ⟨hu, ht⟩ := (World.free_use_isolate h hb).mp hu
    exact ⟨u, hu, ht, hb, hp⟩
  · rintro ⟨u, hu, ht, hb, hp⟩
    exact ⟨u, (World.free_use_isolate h hb).mpr ⟨hu, ht⟩, hb, hp⟩

end Isolate

/-! ## Quotes -/

theorem Frame.quote_eq_ok {f : Frame} {v : Value} {t : Tree} {w w' : World}
    (h : f.quote v w = .ok (.expression t) w') :
    ∃ operand, v = .expression operand ∧ w.isolate f.scope f.cells operand = .ok (t, w') := by
  cases v with
  | expression operand =>
      refine ⟨operand, rfl, ?_⟩
      simp only [Frame.quote] at h
      rw [get_bind] at h
      cases hi : w.isolate f.scope f.cells operand with
      | error e =>
          rw [hi] at h
          cases h
      | ok r =>
          rw [hi] at h
          cases h
          rfl
  | _ => cases h

/-- Evaluating a quote isolates the tree that its code names. -/
theorem Code.run_quote_eq_ok {cx : Context} {f : Frame} {i : Nat} {m m' : Machine} {t : Tree}
    (h : (Code.quote i).run cx f m = .ok (.expression t) m') :
    ∃ operand, f.constant i = .expression operand ∧
      m.world.isolate f.scope f.cells operand = .ok (t, m'.world) := by
  simp only [Code.run, Exec.ofEval] at h
  cases hq : f.quote (f.constant i) m.world with
  | error e w =>
      rw [hq] at h
      cases h
  | ok v w =>
      rw [hq] at h
      cases h
      exact Frame.quote_eq_ok hq

/-- **What is free in a quoted tree.** Whenever a quote is evaluated to a tree, the free parameters
of that tree are those that the operand assigns where they are free. If it assigns none, the tree
does not depend on any scope: it has no free parameters, and no lambda without parameters around it
is refused for a parameter that is out of scope. -/
theorem quote_freeParameters {cx : Context} {f : Frame} {i : Nat} {m m' : Machine} {t : Tree}
    (h : (Code.quote i).run cx f m = .ok (.expression t) m') :
    ∃ operand, f.constant i = .expression operand ∧
      (∀ p, t.hasFree p = true ↔ ∃ u, .use u ∈ operand.leaves ∧ u.isTarget = true ∧
        u.isBound = false ∧ u.parameter.id = p) ∧
      ((∀ u, .use u ∈ operand.leaves → u.isTarget = true → u.isBound = true) →
        t.freeParameters = [] ∧
        ∀ schema options id l name, Identified (Node.ofLambda id (.mk l name [] t)).walk →
          ∀ p, Program.compile schema options (.ofLambda id (.mk l name [] t))
            ≠ .error (.parameterOutOfScope p)) := by
  obtain ⟨operand, hi, hiso⟩ := Code.run_quote_eq_ok h
  refine ⟨operand, hi, fun p => World.hasFree_isolate hiso, fun htargets => ?_⟩
  have hfree : freeOf t.leaves = [] := by
    rw [← Node.freeParameters_eq_nil, Node.freeParameters_eq_nil_iff_hasFree]
    intro p
    rw [Bool.eq_false_iff, ne_eq, World.hasFree_isolate hiso]
    rintro ⟨u, hu, ht, hb, -⟩
    rw [htargets u hu ht] at hb
    cases hb
  refine ⟨Node.freeParameters_eq_nil.mpr hfree, fun schema options id l name hid p herror => ?_⟩
  have hid' : Identified (Lambda.mk l name [] t).walk := fun a b ha hb =>
    hid a b (List.mem_cons_of_mem _ ha) (List.mem_cons_of_mem _ hb)
  have hleaves : freeOf (Lambda.mk l name [] t).leaves = [] := by
    rw [Lambda.leaves, freeOf_under, hfree]
    rfl
  exact Lambda.free_of_scope_error hid' herror hleaves

theorem quote_freeParameters_outer :
    let cx : Context :=
      ⟨.empty, 1000, fun _ _ _ => Eval.fail .missingScope, fun _ _ => Eval.fail .missingScope⟩
    ∃ p t m, Program.compile .empty {} (.quoting .readOuter) = .ok p ∧
      (Code.quote 0).run cx ⟨.root p 0, some 0, 0⟩ ⟨#[], World.holdingFive⟩
        = .ok (.expression t) m ∧
      t.freeParameters = [] := by
  intro cx
  obtain ⟨p, t, m, hp, hrun, hconstant⟩ : ∃ p t m,
      Program.compile .empty {} (.quoting .readOuter) = .ok p ∧
      (Code.quote 0).run cx ⟨.root p 0, some 0, 0⟩ ⟨#[], World.holdingFive⟩
        = .ok (.expression t) m ∧
      Frame.constant ⟨.root p 0, some 0, 0⟩ 0 = .expression .readOuter := ⟨_, _, _, rfl, rfl, rfl⟩
  obtain ⟨operand, hoperand, -, hclosed⟩ := quote_freeParameters hrun
  obtain rfl : operand = .readOuter := Value.expression.inj (hoperand.symm.trans hconstant)
  refine ⟨p, t, m, hp, hrun, (hclosed fun u hu ht => ?_).1⟩
  simp only [Node.leaves_readOuter, List.mem_cons, Leaf.use.injEq, List.not_mem_nil,
    or_false] at hu
  rcases hu with rfl | rfl | rfl <;> cases ht

/-- `x := 1`. -/
def Node.assignOne : Tree := .assign 0 ⟨0, "x", .int .i8⟩ (.constant 1 (.ofInt .i8 1) (.int .i8))

/-- A quoted assignment keeps its target, so what the quote returns does not compile. -/
theorem quote_free_target :
    let x : Parameter := ⟨0, "x", .int .i8⟩
    let e : Environment := ⟨.empty, Native.host .empty 0 #[], 1000, 0⟩
    ∃ t w, e.eval (.quoting .assignOne) [.ofInt .i8 5] {} = (.ok (.expression t), w) ∧
      t.freeParameters = [x] ∧
      Program.compile .empty {} (.ofLambda 20 (.mk 21 none [] t))
        = .error (.parameterOutOfScope "x") := by
  refine ⟨_, _, rfl, rfl, rfl⟩

end ExprTree
