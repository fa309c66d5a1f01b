import ExprTree.Proofs.Interleaving.Values

set_option autoImplicit false

/-! # Worlds of two runs

Two worlds are alike under a correspondence if corresponding things are: closures have scopes of
the same unit over corresponding cells, cells hold values that are alike, lists are empty and
instances have the same scalar fields. Nothing is said about what does not correspond, so each world
may hold much that the other one lacks.

When both runs take the same step, what they make is added to the correspondence
(`World.Alike.grow`). The step leaves alone all cells of the second world that did not correspond to
anything (`Advances`). So a third run that shares the second world does not notice it
(`World.Alike.frame`).
-/

namespace ExprTree

variable {base : Nat} {ρ σ τ : Correspondence base} {p : Program}

/-! ## Optional results and lists -/

theorem forall₂_set {α β : Type} {R : α → β → Prop} {xs : List α} {ys : List β}
    (h : List.Forall₂ R xs ys) (k : Nat) {x : α} {y : β} (hxy : R x y) :
    List.Forall₂ R (xs.set k x) (ys.set k y) := by
  induction h generalizing k with
  | nil => exact .nil
  | cons hab hrest ih =>
      cases k with
      | zero => exact .cons hxy hrest
      | succ k => exact .cons hab (ih k)

theorem optionRel_bind {α α' β β' : Type} {R : α → β → Prop} {S : α' → β' → Prop} {x : Option α}
    {y : Option β} {f : α → Option α'} {g : β → Option β'} (h : Option.Rel R x y)
    (hf : ∀ a b, R a b → Option.Rel S (f a) (g b)) : Option.Rel S (x.bind f) (y.bind g) := by
  cases h with
  | some hab => exact hf _ _ hab
  | none => exact .none

theorem optionRel_map {α α' β β' : Type} {R : α → β → Prop} {S : α' → β' → Prop} {x : Option α}
    {y : Option β} {f : α → α'} {g : β → β'} (h : Option.Rel R x y)
    (hf : ∀ a b, R a b → S (f a) (g b)) : Option.Rel S (x.map f) (y.map g) := by
  cases h with
  | some hab => exact .some (hf _ _ hab)
  | none => exact .none

theorem optionRel_mono {α β : Type} {R S : α → β → Prop} {x : Option α} {y : Option β}
    (h : Option.Rel R x y) (hRS : ∀ a b, R a b → S a b) : Option.Rel S x y := by
  cases h with
  | some hab => exact .some (hRS _ _ hab)
  | none => exact .none

theorem optionRel_cases {α β : Type} {R : α → β → Prop} {x : Option α} {y : Option β}
    (h : Option.Rel R x y) : (x = none ∧ y = none) ∨ ∃ a b, x = some a ∧ y = some b ∧ R a b := by
  cases h with
  | some hab => exact .inr ⟨_, _, rfl, rfl, hab⟩
  | none => exact .inl ⟨rfl, rfl⟩

theorem optionRel_getD {α β : Type} {R : α → β → Prop} {x : Option α} {y : Option β} {a : α}
    {b : β} (h : Option.Rel R x y) (hab : R a b) : R (x.getD a) (y.getD b) := by
  cases h with
  | some hxy => exact hxy
  | none => exact hab

theorem optionRel_isSome {α β : Type} {R : α → β → Prop} {x : Option α} {y : Option β}
    (h : Option.Rel R x y) : x.isSome = y.isSome := by
  cases h <;> rfl

/-! ## Scopes -/

/-- The same unit of the program, in corresponding surroundings. -/
inductive Scope.Alike (ρ : Correspondence base) (p : Program) : Scope → Scope → Prop
  | root (unit : Nat) : Scope.Alike ρ p (.root p unit) (.root p unit)
  | nested {s s' : Scope} {c c' : Option Nat} (parent : Scope.Alike ρ p s s') (unit : Nat)
      (locals : Option.Rel ρ.cells.Rel c c') :
      Scope.Alike ρ p (.nested s unit c) (.nested s' unit c')

/-- The same position in corresponding cells. -/
def Correspondence.Cell (ρ : Correspondence base) (a b : Nat × Nat) : Prop :=
  ρ.cells.Rel a.1 b.1 ∧ a.2 = b.2

namespace Scope.Alike

variable {s s' : Scope}

theorem mono (hext : ρ.Extends σ) (h : s.Alike ρ p s') : s.Alike σ p s' := by
  induction h with
  | root unit => exact .root unit
  | nested _ unit locals ih => exact .nested ih unit (optionRel_mono locals hext.cells)

theorem program (h : s.Alike ρ p s') : s.program = p ∧ s'.program = p := by
  induction h with
  | root => exact ⟨rfl, rfl⟩
  | nested _ _ _ ih => exact ih

theorem unit_eq (h : s.Alike ρ p s') : s'.unit = s.unit := by cases h <;> rfl

theorem unit? (h : s.Alike ρ p s') : s'.unit? = s.unit? := by
  rw [Scope.unit?, Scope.unit?, h.program.1, h.program.2, h.unit_eq]

theorem locals (h : s.Alike ρ p s') : Option.Rel ρ.cells.Rel s.locals s'.locals := by
  cases h with
  | root => exact .none
  | nested _ _ locals => exact locals

theorem localsAt (h : s.Alike ρ p s') (level : Nat) :
    Option.Rel ρ.cells.Rel (s.localsAt level) (s'.localsAt level) := by
  induction level generalizing s s' with
  | zero => exact h.locals
  | succ level ih =>
      cases h with
      | root => exact .none
      | nested parent _ _ => exact ih parent

theorem findFrom (h : s.Alike ρ p s') (units : Arena CodeUnit) (x : Nat) (u : CodeUnit)
    {own own' : Option Nat} (hown : Option.Rel ρ.cells.Rel own own') :
    Option.Rel ρ.Cell (Scope.findFrom units x u own s) (Scope.findFrom units x u own' s') := by
  have hfound : ∀ position, Option.Rel ρ.Cell (own.map (·, position)) (own'.map (·, position)) :=
    fun position => optionRel_map hown fun _ _ hcells => ⟨hcells, rfl⟩
  induction h generalizing u own own' with
  | root =>
      simp only [Scope.findFrom]
      cases u.cellOf? x with
      | some position => exact hfound position
      | none => exact .none
  | nested _ _ locals ih =>
      simp only [Scope.findFrom]
      cases u.cellOf? x with
      | some position => exact hfound position
      | none =>
          cases u.parent.bind units.get? with
          | none => exact .none
          | some around =>
              exact ih around locals fun position =>
                optionRel_map locals fun _ _ hcells => ⟨hcells, rfl⟩

/-- A parameter is found at the same position of corresponding cells. -/
theorem find? (h : s.Alike ρ p s') {own own' : Option Nat}
    (hown : Option.Rel ρ.cells.Rel own own') (x : Nat) :
    Option.Rel ρ.Cell (s.find? own x) (s'.find? own' x) := by
  rw [Scope.find?, Scope.find?, h.unit?, h.program.1, h.program.2]
  cases s.unit? with
  | none => exact .none
  | some u => exact h.findFrom p.units x u hown

end Scope.Alike

/-! ## Worlds -/

/-- Corresponding things are alike. -/
structure World.Alike (ρ : Correspondence base) (p : Program) (w v : World) : Prop where
  closures : ∀ i j, ρ.closures.Rel i j → ∃ s s', w.closures[i]? = some s ∧
    v.closures[j]? = some s' ∧ s.Alike ρ p s'
  cells : ∀ i j, ρ.cells.Rel i j → ∃ xs ys, w.cells[i]? = some xs ∧ v.cells[j]? = some ys ∧
    Value.AlikeAll ρ xs.toList ys.toList
  lists : ∀ i j, ρ.lists.Rel i j → w.heap.lists[i]? = some #[] ∧ v.heap.lists[j]? = some #[]
  instances : ∀ i j, ρ.instances.Rel i j → ∃ fields : Array Value,
    (∀ x ∈ fields.toList, x.isScalar = true) ∧ w.heap.instances[i]? = some fields ∧
      v.heap.instances[j]? = some fields
  ids : ρ.ids.Below w.heap.nextId v.heap.nextId

/-- Everything in the world stays as it is, except for cells that are `touched`. -/
structure World.Keeps (touched : Nat → Prop) (v v' : World) : Prop where
  closures : ∀ (i : Nat) s, v.closures[i]? = some s → v'.closures[i]? = some s
  cells : ∀ (i : Nat) xs, ¬ touched i → v.cells[i]? = some xs → v'.cells[i]? = some xs
  size : v.cells.size ≤ v'.cells.size
  lists : ∀ (i : Nat) xs, v.heap.lists[i]? = some xs → v'.heap.lists[i]? = some xs
  instances : ∀ (i : Nat) xs, v.heap.instances[i]? = some xs → v'.heap.instances[i]? = some xs
  nextId : v.heap.nextId ≤ v'.heap.nextId

/-- Everything in the world stays as it is. -/
abbrev World.Grows : World → World → Prop := World.Keeps fun _ => False

/-- The run in the second world goes from `v` to `v'`. It changes no cell that was there and did not
correspond to anything, and does not let such a cell correspond to anything later. -/
structure Advances (ρ σ : Correspondence base) (v v' : World) : Prop where
  correspondence : ρ.Extends σ
  keeps : v.Keeps (fun j => ∃ i, ρ.cells.Rel i j) v'
  new : ∀ i j, σ.cells.Rel i j → ρ.cells.Rel i j ∨ v.cells.size ≤ j

namespace World.Keeps

variable {touched touched' : Nat → Prop} {v v' v'' : World}

theorem refl (touched : Nat → Prop) (v : World) : v.Keeps touched v :=
  ⟨fun _ _ h => h, fun _ _ _ h => h, Nat.le_refl _, fun _ _ h => h, fun _ _ h => h, Nat.le_refl _⟩

theorem mono (h : v.Keeps touched v') (ht : ∀ j, touched j → touched' j) : v.Keeps touched' v' :=
  { h with cells := fun i xs hi => h.cells i xs fun hi' => hi (ht i hi') }

theorem trans (h : v.Keeps touched v') (h' : v'.Keeps touched' v'')
    (ht : ∀ j < v.cells.size, touched' j → touched j) : v.Keeps touched v'' where
  closures i s hs := h'.closures i s (h.closures i s hs)
  cells i xs hi hxs := by
    have hlt : i < v.cells.size := (Array.getElem?_eq_some_iff.mp hxs).1
    exact h'.cells i xs (fun hi' => hi (ht i hlt hi')) (h.cells i xs hi hxs)
  size := Nat.le_trans h.size h'.size
  lists i xs hxs := h'.lists i xs (h.lists i xs hxs)
  instances i xs hxs := h'.instances i xs (h.instances i xs hxs)
  nextId := Nat.le_trans h.nextId h'.nextId

end World.Keeps

namespace Advances

variable {v v' v'' : World}

theorem refl (ρ : Correspondence base) (v : World) : Advances ρ ρ v v :=
  ⟨.refl ρ, .refl _ v, fun _ _ h => .inl h⟩

theorem trans (h : Advances ρ σ v v') (h' : Advances σ τ v' v'') : Advances ρ τ v v'' where
  correspondence := h.correspondence.trans h'.correspondence
  keeps := by
    refine h.keeps.trans h'.keeps fun j hj ⟨i, hij⟩ => ?_
    rcases h.new i j hij with hij | hle
    · exact ⟨i, hij⟩
    · omega
  new i j hij := by
    rcases h'.new i j hij with hij | hle
    · exact h.new i j hij
    · exact .inr (Nat.le_trans h.keeps.size hle)

theorem ofGrows (hext : ρ.Extends σ) (hv : v.Grows v')
    (hnew : ∀ i j, σ.cells.Rel i j → ρ.cells.Rel i j ∨ v.cells.size ≤ j) : Advances ρ σ v v' :=
  ⟨hext, hv.mono nofun, hnew⟩

end Advances

namespace World.Alike

variable {w w' v v' : World}

theorem closures_below (h : World.Alike ρ p w v) :
    ρ.closures.Below w.closures.size v.closures.size := by
  intro i j hij
  obtain ⟨s, s', hs, hs', -⟩ := h.closures i j hij
  exact ⟨(Array.getElem?_eq_some_iff.mp hs).1, (Array.getElem?_eq_some_iff.mp hs').1⟩

theorem cells_below (h : World.Alike ρ p w v) : ρ.cells.Below w.cells.size v.cells.size := by
  intro i j hij
  obtain ⟨xs, ys, hxs, hys, -⟩ := h.cells i j hij
  exact ⟨(Array.getElem?_eq_some_iff.mp hxs).1, (Array.getElem?_eq_some_iff.mp hys).1⟩

theorem lists_below (h : World.Alike ρ p w v) :
    ρ.lists.Below w.heap.lists.size v.heap.lists.size := by
  intro i j hij
  obtain ⟨hi, hj⟩ := h.lists i j hij
  exact ⟨(Array.getElem?_eq_some_iff.mp hi).1, (Array.getElem?_eq_some_iff.mp hj).1⟩

theorem instances_below (h : World.Alike ρ p w v) :
    ρ.instances.Below w.heap.instances.size v.heap.instances.size := by
  intro i j hij
  obtain ⟨fields, -, hi, hj⟩ := h.instances i j hij
  exact ⟨(Array.getElem?_eq_some_iff.mp hi).1, (Array.getElem?_eq_some_iff.mp hj).1⟩

theorem emptyLists (h : World.Alike ρ p w v) : w.heap.EmptyLists ρ v.heap := by
  intro i j hij
  obtain ⟨hi, hj⟩ := h.lists i j hij
  simp [Heap.listItems, hi, hj]

/-- Both worlds grow, and what starts to correspond is alike. -/
theorem grow (h : World.Alike ρ p w v) (hext : ρ.Extends σ) (hw : w.Grows w') (hv : v.Grows v')
    (closures : ∀ i j, σ.closures.Rel i j → ρ.closures.Rel i j ∨ ∃ s s',
      w'.closures[i]? = some s ∧ v'.closures[j]? = some s' ∧ s.Alike σ p s')
    (cells : ∀ i j, σ.cells.Rel i j → ρ.cells.Rel i j ∨ ∃ xs ys, w'.cells[i]? = some xs ∧
      v'.cells[j]? = some ys ∧ Value.AlikeAll σ xs.toList ys.toList)
    (lists : ∀ i j, σ.lists.Rel i j → ρ.lists.Rel i j ∨
      w'.heap.lists[i]? = some #[] ∧ v'.heap.lists[j]? = some #[])
    (instances : ∀ i j, σ.instances.Rel i j → ρ.instances.Rel i j ∨ ∃ fields : Array Value,
      (∀ x ∈ fields.toList, x.isScalar = true) ∧ w'.heap.instances[i]? = some fields ∧
        v'.heap.instances[j]? = some fields)
    (ids : σ.ids.Below w'.heap.nextId v'.heap.nextId) : World.Alike σ p w' v' where
  closures i j hij := by
    rcases closures i j hij with hij | hnew
    · obtain ⟨s, s', hs, hs', hss⟩ := h.closures i j hij
      exact ⟨s, s', hw.closures i s hs, hv.closures j s' hs', hss.mono hext⟩
    · exact hnew
  cells i j hij := by
    rcases cells i j hij with hij | hnew
    · obtain ⟨xs, ys, hxs, hys, hxy⟩ := h.cells i j hij
      exact ⟨xs, ys, hw.cells i xs id hxs, hv.cells j ys id hys, hxy.mono hext⟩
    · exact hnew
  lists i j hij := by
    rcases lists i j hij with hij | hnew
    · obtain ⟨hi, hj⟩ := h.lists i j hij
      exact ⟨hw.lists i _ hi, hv.lists j _ hj⟩
    · exact hnew
  instances i j hij := by
    rcases instances i j hij with hij | hnew
    · obtain ⟨fields, hfields, hi, hj⟩ := h.instances i j hij
      exact ⟨fields, hfields, hw.instances i _ hi, hv.instances j _ hj⟩
    · exact hnew
  ids := ids

/-- A run does not notice what another run does in the second world, if no cell corresponds to
something for both. -/
theorem frame (h : World.Alike ρ p w v) (hstep : Advances σ τ v v')
    (hapart : ∀ i i' j, ρ.cells.Rel i j → ¬ σ.cells.Rel i' j) : World.Alike ρ p w v' where
  closures i j hij := by
    obtain ⟨s, s', hs, hs', hss⟩ := h.closures i j hij
    exact ⟨s, s', hs, hstep.keeps.closures j s' hs', hss⟩
  cells i j hij := by
    obtain ⟨xs, ys, hxs, hys, hxy⟩ := h.cells i j hij
    have hj : ¬ ∃ i', σ.cells.Rel i' j := fun ⟨i', hij'⟩ => hapart i i' j hij hij'
    exact ⟨xs, ys, hxs, hstep.keeps.cells j ys hj hys, hxy⟩
  lists i j hij := by
    obtain ⟨hi, hj⟩ := h.lists i j hij
    exact ⟨hi, hstep.keeps.lists j _ hj⟩
  instances i j hij := by
    obtain ⟨fields, hfields, hi, hj⟩ := h.instances i j hij
    exact ⟨fields, hfields, hi, hstep.keeps.instances j _ hj⟩
  ids := h.ids.mono (Nat.le_refl _) hstep.keeps.nextId

end World.Alike

/-! ## Steps of both runs -/

theorem getElem?_push_of_eq_some {α : Type} {xs : Array α} {x y : α} {i : Nat}
    (h : xs[i]? = some y) : (xs.push x)[i]? = some y := by
  have hlt : i < xs.size := (Array.getElem?_eq_some_iff.mp h).1
  rw [Array.getElem?_push, if_neg (Nat.ne_of_lt hlt), h]

namespace World

theorem Grows.newClosure (w : World) (s : Scope) : w.Grows (w.newClosure s).2 :=
  { Keeps.refl _ w with closures := fun _ _ h => getElem?_push_of_eq_some h }

theorem Grows.newCells (w : World) (values : Array Value) : w.Grows (w.newCells values).2 where
  closures _ _ h := h
  cells _ _ _ h := getElem?_push_of_eq_some h
  size := by
    rw [World.newCells, Array.size_push]
    exact Nat.le_succ _
  lists _ _ h := h
  instances _ _ h := h
  nextId := Nat.le_refl _

theorem Grows.withNextId (w : World) {n : Nat} (hn : w.heap.nextId ≤ n) :
    w.Grows { w with heap := { w.heap with nextId := n } } :=
  { Keeps.refl _ w with nextId := hn }

theorem Grows.newList (w : World) (items : List Value) :
    w.Grows { w with heap := (w.heap.newList items).2 } :=
  { Keeps.refl _ w with lists := fun _ _ h => getElem?_push_of_eq_some h }

theorem Grows.newInstance (w : World) (r : RecordRef) (fields : List Value) :
    w.Grows { w with heap := (w.heap.newInstance r fields).2 } :=
  { Keeps.refl _ w with instances := fun _ _ h => getElem?_push_of_eq_some h }

namespace Alike

variable {w v : World}

theorem newClosure (h : World.Alike ρ p w v) {s s' : Scope} (hs : s.Alike ρ p s') :
    ∃ σ, Advances ρ σ v (v.newClosure s').2 ∧
      World.Alike σ p (w.newClosure s).2 (v.newClosure s').2 ∧
      (w.newClosure s).1.Alike σ (v.newClosure s').1 := by
  let σ : Correspondence base :=
    { ρ with closures := ρ.closures.extend _ _ 1 h.closures_below }
  have hext : ρ.Extends σ := { Correspondence.Extends.refl ρ with closures := fun _ _ => .inl }
  have hrel : σ.closures.Rel w.closures.size v.closures.size :=
    Matching.extend_new h.closures_below 0 Nat.one_pos
  refine ⟨σ, .ofGrows hext (.newClosure v s') fun _ _ => .inl, ?_, ?_⟩
  · refine h.grow hext (.newClosure w s) (.newClosure v s') ?_ (fun _ _ => .inl) (fun _ _ => .inl)
      (fun _ _ => .inl) h.ids
    rintro i j (hij | ⟨d, hd, rfl, rfl⟩)
    · exact .inl hij
    · obtain rfl : d = 0 := by omega
      exact .inr ⟨s, s', Array.getElem?_push_size, Array.getElem?_push_size, hs.mono hext⟩
  · simp only [World.newClosure, hs.unit?]
    exact .function hrel

theorem newCells (h : World.Alike ρ p w v) {xs ys : Array Value}
    (hxy : Value.AlikeAll ρ xs.toList ys.toList) :
    ∃ σ, Advances ρ σ v (v.newCells ys).2 ∧
      World.Alike σ p (w.newCells xs).2 (v.newCells ys).2 ∧
      σ.cells.Rel (w.newCells xs).1 (v.newCells ys).1 := by
  let σ : Correspondence base := { ρ with cells := ρ.cells.extend _ _ 1 h.cells_below }
  have hext : ρ.Extends σ := { Correspondence.Extends.refl ρ with cells := fun _ _ => .inl }
  have hrel : σ.cells.Rel w.cells.size v.cells.size :=
    Matching.extend_new h.cells_below 0 Nat.one_pos
  refine ⟨σ, .ofGrows hext (.newCells v ys) ?_, ?_, hrel⟩
  · rintro i j (hij | ⟨d, -, -, rfl⟩)
    · exact .inl hij
    · exact .inr (Nat.le_add_right _ _)
  · refine h.grow hext (.newCells w xs) (.newCells v ys) (fun _ _ => .inl) ?_ (fun _ _ => .inl)
      (fun _ _ => .inl) h.ids
    rintro i j (hij | ⟨d, hd, rfl, rfl⟩)
    · exact .inl hij
    · obtain rfl : d = 0 := by omega
      exact .inr ⟨xs, ys, Array.getElem?_push_size, Array.getElem?_push_size, hxy.mono hext⟩

theorem newList (h : World.Alike ρ p w v) :
    ∃ σ, Advances ρ σ v { v with heap := (v.heap.newList []).2 } ∧
      World.Alike σ p { w with heap := (w.heap.newList []).2 }
        { v with heap := (v.heap.newList []).2 } ∧
      (w.heap.newList []).1.Alike σ (v.heap.newList []).1 := by
  let σ : Correspondence base := { ρ with lists := ρ.lists.extend _ _ 1 h.lists_below }
  have hext : ρ.Extends σ := { Correspondence.Extends.refl ρ with lists := fun _ _ => .inl }
  have hrel : σ.lists.Rel w.heap.lists.size v.heap.lists.size :=
    Matching.extend_new h.lists_below 0 Nat.one_pos
  refine ⟨σ, .ofGrows hext (.newList v []) fun _ _ => .inl, ?_, .list hrel⟩
  refine h.grow hext (.newList w []) (.newList v []) (fun _ _ => .inl) (fun _ _ => .inl) ?_
    (fun _ _ => .inl) h.ids
  rintro i j (hij | ⟨d, hd, rfl, rfl⟩)
  · exact .inl hij
  · obtain rfl : d = 0 := by omega
    exact .inr ⟨Array.getElem?_push_size, Array.getElem?_push_size⟩

theorem newInstance (h : World.Alike ρ p w v) (r : RecordRef) {fields : List Value}
    (hfields : ∀ x ∈ fields, x.isScalar = true) :
    ∃ σ, Advances ρ σ v { v with heap := (v.heap.newInstance r fields).2 } ∧
      World.Alike σ p { w with heap := (w.heap.newInstance r fields).2 }
        { v with heap := (v.heap.newInstance r fields).2 } ∧
      (w.heap.newInstance r fields).1.Alike σ (v.heap.newInstance r fields).1 := by
  let σ : Correspondence base :=
    { ρ with instances := ρ.instances.extend _ _ 1 h.instances_below }
  have hext : ρ.Extends σ := { Correspondence.Extends.refl ρ with instances := fun _ _ => .inl }
  have hrel : σ.instances.Rel w.heap.instances.size v.heap.instances.size :=
    Matching.extend_new h.instances_below 0 Nat.one_pos
  refine ⟨σ, .ofGrows hext (.newInstance v r fields) fun _ _ => .inl, ?_, .object hrel⟩
  refine h.grow hext (.newInstance w r fields) (.newInstance v r fields) (fun _ _ => .inl)
    (fun _ _ => .inl) (fun _ _ => .inl) ?_ h.ids
  rintro i j (hij | ⟨d, hd, rfl, rfl⟩)
  · exact .inl hij
  · obtain rfl : d = 0 := by omega
    exact .inr ⟨fields.toArray, hfields, Array.getElem?_push_size, Array.getElem?_push_size⟩

/-- Both runs take the same number of identities. -/
theorem takeIds (h : World.Alike ρ p w v) (n : Nat) :
    ∃ σ, Advances ρ σ v { v with heap := { v.heap with nextId := v.heap.nextId + n } } ∧
      World.Alike σ p { w with heap := { w.heap with nextId := w.heap.nextId + n } }
        { v with heap := { v.heap with nextId := v.heap.nextId + n } } ∧
      ∀ d < n, σ.ids.Rel (w.heap.nextId + d) (v.heap.nextId + d) := by
  let σ : Correspondence base :=
    { ρ with
      ids := ρ.ids.extend _ _ n h.ids
      old := fun i hi => .inl (ρ.old i hi) }
  have hext : ρ.Extends σ := { Correspondence.Extends.refl ρ with ids := fun _ _ => .inl }
  have hw := Grows.withNextId w (Nat.le_add_right w.heap.nextId n)
  have hv := Grows.withNextId v (Nat.le_add_right v.heap.nextId n)
  exact ⟨σ, .ofGrows hext hv fun _ _ => .inl, h.grow hext hw hv (fun _ _ => .inl) (fun _ _ => .inl)
    (fun _ _ => .inl) (fun _ _ => .inl) h.ids.extend, Matching.extend_new h.ids⟩

theorem newArray (h : World.Alike ρ p w v) {xs ys : List Value} (hxy : Value.AlikeAll ρ xs ys) :
    ∃ σ, Advances ρ σ v { v with heap := (v.heap.newArray ys).2 } ∧
      World.Alike σ p { w with heap := (w.heap.newArray xs).2 }
        { v with heap := (v.heap.newArray ys).2 } ∧
      (w.heap.newArray xs).1.Alike σ (v.heap.newArray ys).1 := by
  obtain ⟨σ, hstep, hworld, hids⟩ := h.takeIds 1
  exact ⟨σ, hstep, hworld, .ofItems (hids 0 Nat.one_pos) (hxy.mono hstep.correspondence)⟩

/-! ## Cells -/

theorem cell? (h : World.Alike ρ p w v) {a b : Nat × Nat} (hab : ρ.Cell a b) :
    Option.Rel (Value.Alike ρ) (w.cell? a.1 a.2) (v.cell? b.1 b.2) := by
  obtain ⟨hcells, hposition⟩ := hab
  obtain ⟨xs, ys, hxs, hys, hxy⟩ := h.cells _ _ hcells
  have hvalue := getElem?_forall₂ hxy a.2
  simpa [World.cell?, hxs, hys, ← hposition] using hvalue

/-- Storing values that are alike at the same position of corresponding cells. -/
theorem modifyCells (h : World.Alike ρ p w v) {i j : Nat} (hij : ρ.cells.Rel i j) (k : Nat)
    {x y : Value} (hxy : x.Alike ρ y) :
    World.Alike ρ p { w with cells := w.cells.modify i (·.setIfInBounds k x) }
      { v with cells := v.cells.modify j (·.setIfInBounds k y) } := by
  refine { h with cells := fun i' j' hij' => ?_ }
  obtain ⟨xs, ys, hxs, hys, hitems⟩ := h.cells i' j' hij'
  simp only [Array.getElem?_modify]
  by_cases hi : i = i'
  · obtain rfl : j = j' := ρ.cells.left hij (hi ▸ hij')
    refine ⟨xs.setIfInBounds k x, ys.setIfInBounds k y, by simp [hi, hxs], by simp [hys], ?_⟩
    rw [Array.toList_setIfInBounds, Array.toList_setIfInBounds]
    exact forall₂_set hitems k hxy
  · have hj : j ≠ j' := fun hj => hi (ρ.cells.right hij (hj ▸ hij'))
    exact ⟨xs, ys, by simp [hi, hxs], by simp [hj, hys], hitems⟩

theorem setCell? (h : World.Alike ρ p w v) {a b : Nat × Nat} (hab : ρ.Cell a b) {x y : Value}
    (hxy : x.Alike ρ y) :
    Option.Rel (fun w' v' => Advances ρ ρ v v' ∧ World.Alike ρ p w' v')
      (w.setCell? a.1 a.2 x) (v.setCell? b.1 b.2 y) := by
  have hsome : (w.cell? a.1 a.2).isSome = (v.cell? b.1 b.2).isSome :=
    optionRel_isSome (h.cell? hab)
  obtain ⟨hcells, hposition⟩ := hab
  rw [World.setCell?, World.setCell?, hsome]
  split
  · refine .some ⟨⟨.refl ρ, ?_, fun _ _ => .inl⟩, hposition ▸ h.modifyCells hcells a.2 hxy⟩
    refine { Keeps.refl (fun j => ∃ i, ρ.cells.Rel i j) v with
      cells := fun j ys hj hys => ?_
      size := by simp }
    have hne : b.1 ≠ j := fun heq => hj ⟨a.1, heq ▸ hcells⟩
    simpa [Array.getElem?_modify, hne] using hys
  · exact .none

theorem captured? (h : World.Alike ρ p w v) {s s' : Scope} (hs : s.Alike ρ p s') (x : Nat) :
    Option.Rel (Value.Alike ρ) (w.captured? s x) (v.captured? s' x) :=
  optionRel_bind (hs.find? .none x) fun _ _ hab => h.cell? hab

theorem setCaptured? (h : World.Alike ρ p w v) {s s' : Scope} (hs : s.Alike ρ p s') (q : Nat)
    {x y : Value} (hxy : x.Alike ρ y) :
    Option.Rel (fun w' v' => Advances ρ ρ v v' ∧ World.Alike ρ p w' v')
      (w.setCaptured? s q x) (v.setCaptured? s' q y) :=
  optionRel_bind (hs.find? .none q) fun _ _ hab => h.setCell? hab hxy

end Alike

end World

/-! ## Isolated trees -/

/-- Values that are alike for the same parameters. -/
abbrev Substitution.Alike (ρ : Correspondence base) : Substitution Value → Substitution Value →
    Prop :=
  List.Forall₂ fun a b => a.1 = b.1 ∧ a.2.Alike ρ b.2

theorem Substitution.Alike.lookup {s s' : Substitution Value} (h : Substitution.Alike ρ s s')
    (x : Nat) : Option.Rel (Value.Alike ρ) (s.lookup x) (s'.lookup x) := by
  induction h with
  | nil => exact .none
  | @cons a b _ _ hab _ ih =>
      obtain ⟨hkey, hvalue⟩ := hab
      rw [List.lookup_cons, List.lookup_cons, hkey]
      cases x == b.1 with
      | true => exact .some hvalue
      | false => exact ih

namespace World.Alike

variable {w v : World} {s s' : Scope} {own own' : Option Nat}

theorem captureAll? (h : World.Alike ρ p w v) (hs : s.Alike ρ p s')
    (hown : Option.Rel ρ.cells.Rel own own') (ps : List Parameter) :
    Option.Rel (Substitution.Alike ρ) (w.captureAll? s own ps) (v.captureAll? s' own' ps) := by
  induction ps with
  | nil => exact .some .nil
  | cons q ps ih =>
      refine optionRel_bind (hs.find? hown q.id) fun a b hab => ?_
      refine optionRel_bind (h.cell? hab) fun x y hxy => ?_
      exact optionRel_bind ih fun _ _ hrest => .some (.cons ⟨rfl, hxy⟩ hrest)

/-- A tree that is older than both runs is isolated in the same way. -/
theorem isolate (h : World.Alike ρ p w v) (hs : s.Alike ρ p s')
    (hown : Option.Rel ρ.cells.Rel own own') {t : Tree} (ht : (Value.expression t).Grounded base) :
    SameOutcome (fun a b => ∃ σ, Advances ρ σ v b.2 ∧ World.Alike σ p a.2 b.2 ∧
        (Value.expression a.1).Alike σ (.expression b.1))
      (w.isolate s own t) (v.isolate s' own' t) := by
  have hvalues := h.captureAll? hs hown t.freeParameters
  unfold World.isolate
  revert hvalues
  generalize w.captureAll? s own t.freeParameters = values
  generalize v.captureAll? s' own' t.freeParameters = values'
  rintro (@⟨values, values', hvalues⟩ | _)
  · have hempty : values.isEmpty = values'.isEmpty := by cases hvalues <;> rfl
    have hkeys : ∀ x, (values.lookup x).isSome = (values'.lookup x).isSome :=
      fun x => optionRel_isSome (Substitution.Alike.lookup hvalues x)
    obtain ⟨c, hc, hc', hsimilar⟩ :=
      Node.substitute_inStep hempty hkeys t w.heap.nextId v.heap.nextId
    obtain ⟨σ, hstep, hworld, hids⟩ := h.takeIds c
    obtain ⟨hbelow, hconstants⟩ := Value.grounded_expression.mp ht
    -- the identities that stay are old, the others were taken just now
    have htree := hsimilar σ.ids.Rel (fun i hi => σ.old i (hbelow i hi)) hids
    have hall := Node.constants_substitute
      (fun x => Substitution.Alike.lookup (hvalues.imp fun _ _ hab =>
        ⟨hab.1, hab.2.mono hstep.correspondence⟩) x)
      (fun x hx => (hconstants x hx).alike σ) w.heap.nextId v.heap.nextId
    rw [← hc, ← hc'] at hworld
    rw [← hc'] at hstep
    exact .ok ⟨σ, hstep, hworld, .ofConstants htree hall⟩
  · exact .error _

end World.Alike

end ExprTree
