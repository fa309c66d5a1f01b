import ExprTree.Host.Native
import ExprTree.Proofs.Computation
import ExprTree.Proofs.Records
import ExprTree.Proofs.WellFormed

set_option autoImplicit false

/-! # Construction of objects and lists

A `Blueprint` describes a tree of records with fields set on them and lists with elements added to
them, nested in any way, over constants and parameters. `Blueprint.make` says what it stands for: a
value, and the contents of the instances and lists that are new. A record is numbered before what is
in its fields, a list before its elements.

`eval_blueprint` says that evaluating the tree gives that value and adds exactly these instances and
lists to the heap. The value under construction waits in a slot while values nested in it are built
in the same frame. So what a run keeps is that the slots reserved before it started are left alone
(`Machine.Steps`), and that the record or list whose contents are being set has the contents of the
bindings or elements done so far.
-/

namespace ExprTree

/-! ## Blueprints -/

mutual

/-- A tree that makes records and lists; nodes have the identities that they get in a tree. -/
inductive Blueprint
  | constant (id : Nat) (v : Value) (ty : Ty)
  | parameter (id : Nat) (p : Parameter)
  /-- A record with default fields. -/
  | new (id : Nat) (r : RecordRef)
  /-- A record with fields set on it. -/
  | object (id newId : Nat) (r : RecordRef) (fields : List FieldPlan)
  /-- A list with elements added to it. -/
  | list (id newId : Nat) (element : Ty) (adds : List AddPlan)

/-- A value for a field. -/
inductive FieldPlan
  | mk (name : String) (index : Nat) (ty : Ty) (value : Blueprint)

/-- Arguments for an `add` method. -/
inductive AddPlan
  | mk (add : Method) (args : List Blueprint)

end

mutual

/-- The tree. -/
def Blueprint.node : Blueprint → Tree
  | .constant id v ty => .constant id v ty
  | .parameter id p => .parameter id p
  | .new id r => .newDefault id (.record r) []
  | .object id newId r fields =>
      .memberInit id (.newDefault newId (.record r) []) (FieldPlan.bindings fields)
  | .list id newId element adds =>
      .listInit id (.newDefault newId (.list element) []) (AddPlan.inits adds)

/-- The trees. -/
def Blueprint.nodes : List Blueprint → List Tree
  | [] => []
  | b :: bs => b.node :: Blueprint.nodes bs

/-- The bindings of fields. -/
def FieldPlan.bindings : List FieldPlan → List (MemberBinding Value)
  | [] => []
  | .mk name index ty value :: rest =>
      .assign (.field name index ty) value.node :: FieldPlan.bindings rest

/-- The initialisers of a list. -/
def AddPlan.inits : List AddPlan → List (ElementInit Value)
  | [] => []
  | .mk add args :: rest => .mk add (Blueprint.nodes args) :: AddPlan.inits rest

end

mutual

/-- The parameters that are read, in order. -/
def Blueprint.parameters : Blueprint → List Parameter
  | .constant .. | .new .. => []
  | .parameter _ p => [p]
  | .object _ _ _ fields => FieldPlan.parameters fields
  | .list _ _ _ adds => AddPlan.parameters adds

/-- The parameters that several blueprints read. -/
def Blueprint.parametersAll : List Blueprint → List Parameter
  | [] => []
  | b :: bs => b.parameters ++ Blueprint.parametersAll bs

/-- The parameters that the values of fields read. -/
def FieldPlan.parameters : List FieldPlan → List Parameter
  | [] => []
  | .mk _ _ _ value :: rest => value.parameters ++ FieldPlan.parameters rest

/-- The parameters that the elements of a list read. -/
def AddPlan.parameters : List AddPlan → List Parameter
  | [] => []
  | .mk _ args :: rest => Blueprint.parametersAll args ++ AddPlan.parameters rest

end

/-- The method appends its arguments, `count` of them, to the list it is called on. -/
def Host.Appends (host : Host) (add : Method) (count : Nat) : Prop :=
  ∀ id items heap calls, items.length = count →
    ∃ v, host add.impl (.list id :: items) heap calls = .done (.ok v) (heap.pushAll id items)

mutual

/-- The fields are fields of their record, and elements are added by instance methods that
append. -/
def Blueprint.Valid (schema : Schema) (host : Host) : Blueprint → Prop
  | .constant .. | .parameter .. | .new .. => True
  | .object _ _ r fields => FieldPlan.Valid schema host r fields
  | .list _ _ _ adds => AddPlan.Valid schema host adds

/-- Several blueprints are valid. -/
def Blueprint.ValidAll (schema : Schema) (host : Host) : List Blueprint → Prop
  | [] => True
  | b :: bs => b.Valid schema host ∧ Blueprint.ValidAll schema host bs

/-- Values for fields that the record has. -/
def FieldPlan.Valid (schema : Schema) (host : Host) (r : RecordRef) : List FieldPlan → Prop
  | [] => True
  | .mk name index ty value :: rest =>
      schema.member? (.record r) name = some (.field name index ty) ∧ value.Valid schema host ∧
        FieldPlan.Valid schema host r rest

/-- Elements that are added by appending. -/
def AddPlan.Valid (schema : Schema) (host : Host) : List AddPlan → Prop
  | [] => True
  | .mk add args :: rest =>
      add.isStatic = false ∧ host.Appends add args.length ∧ Blueprint.ValidAll schema host args ∧
        AddPlan.Valid schema host rest

end

/-! ## What is built -/

/-- The contents of new instances and new lists, in the order of their numbers. -/
structure Growth where
  instances : List (List Value) := []
  lists : List (List Value) := []

namespace Growth

instance : Append Growth := ⟨fun a b => ⟨a.instances ++ b.instances, a.lists ++ b.lists⟩⟩

/-- One instance. -/
def ofInstance (fields : List Value) : Growth := ⟨[fields], []⟩

/-- One list. -/
def ofList (items : List Value) : Growth := ⟨[], [items]⟩

theorem append_eq (a b : Growth) :
    a ++ b = ⟨a.instances ++ b.instances, a.lists ++ b.lists⟩ := rfl

@[simp] theorem instances_append (a b : Growth) :
    (a ++ b).instances = a.instances ++ b.instances := rfl

@[simp] theorem lists_append (a b : Growth) : (a ++ b).lists = a.lists ++ b.lists := rfl

@[simp] theorem instances_ofInstance (fields : List Value) :
    (ofInstance fields).instances = [fields] := rfl

@[simp] theorem lists_ofInstance (fields : List Value) : (ofInstance fields).lists = [] := rfl

@[simp] theorem instances_ofList (items : List Value) : (ofList items).instances = [] := rfl

@[simp] theorem lists_ofList (items : List Value) : (ofList items).lists = [items] := rfl

theorem append_assoc (a b c : Growth) : a ++ b ++ c = a ++ (b ++ c) := by
  simp only [append_eq, List.append_assoc]

theorem append_empty (g : Growth) : g ++ {} = g := by
  simp only [append_eq, List.append_nil]

@[simp] theorem empty_append (g : Growth) : {} ++ g = g := rfl

end Growth

/-- The fields of a record: every field holds the value of the last binding to it, or its
default. -/
def fieldValues (defaults : List Value) (bound : List (Nat × Value)) : List Value :=
  defaults.mapIdx fun k default => (bound.reverse.lookup k).getD default

mutual

/-- The value that a blueprint stands for, and what is new with it, if there are `i` instances and
`j` lists before. `ρ` gives the values of parameters. -/
def Blueprint.make (schema : Schema) (ρ : Nat → Value) (i j : Nat) : Blueprint → Value × Growth
  | .constant _ v _ => (v, {})
  | .parameter _ p => (ρ p.id, {})
  | .new _ r => (.object r i, .ofInstance (schema.defaults r))
  | .object _ _ r fields =>
      let inner := FieldPlan.make schema ρ (i + 1) j fields
      (.object r i, .ofInstance (fieldValues (schema.defaults r) inner.1) ++ inner.2)
  | .list _ _ _ adds =>
      let inner := AddPlan.make schema ρ i (j + 1) adds
      (.list j, .ofList inner.1 ++ inner.2)

/-- The values of several blueprints in order. -/
def Blueprint.makeAll (schema : Schema) (ρ : Nat → Value) (i j : Nat) :
    List Blueprint → List Value × Growth
  | [] => ([], {})
  | b :: bs =>
      let first := b.make schema ρ i j
      let rest := Blueprint.makeAll schema ρ (i + first.2.instances.length)
        (j + first.2.lists.length) bs
      (first.1 :: rest.1, first.2 ++ rest.2)

/-- The values bound to fields, with the positions of the fields, in the order of the bindings. -/
def FieldPlan.make (schema : Schema) (ρ : Nat → Value) (i j : Nat) :
    List FieldPlan → List (Nat × Value) × Growth
  | [] => ([], {})
  | .mk _ index _ value :: rest =>
      let first := value.make schema ρ i j
      let others := FieldPlan.make schema ρ (i + first.2.instances.length)
        (j + first.2.lists.length) rest
      ((index, first.1) :: others.1, first.2 ++ others.2)

/-- The elements of a list, in order. -/
def AddPlan.make (schema : Schema) (ρ : Nat → Value) (i j : Nat) :
    List AddPlan → List Value × Growth
  | [] => ([], {})
  | .mk _ args :: rest =>
      let first := Blueprint.makeAll schema ρ i j args
      let others := AddPlan.make schema ρ (i + first.2.instances.length)
        (j + first.2.lists.length) rest
      (first.1 ++ others.1, first.2 ++ others.2)

end

/-! ## Heaps that grow -/

section Heaps

/-- The heap with new instances and new lists. -/
def Heap.extend (h : Heap) (g : Growth) : Heap :=
  { h with
    instances := h.instances ++ (g.instances.map List.toArray).toArray
    lists := h.lists ++ (g.lists.map List.toArray).toArray }

variable {h : Heap} {g g' : Growth}

@[simp] theorem Heap.size_instances_extend :
    (h.extend g).instances.size = h.instances.size + g.instances.length := by
  simp [Heap.extend]

@[simp] theorem Heap.size_lists_extend :
    (h.extend g).lists.size = h.lists.size + g.lists.length := by
  simp [Heap.extend]

theorem Heap.extend_empty : h.extend {} = h := by
  simp [Heap.extend]

theorem Heap.extend_extend : (h.extend g).extend g' = h.extend (g ++ g') := by
  simp [Heap.extend, Growth.append_eq]

/-- What is new in addition makes the tables longer. -/
theorem Heap.sizes_of_extend {h₁ h₂ : Heap} {a b : Growth} (hb : h₁ = h.extend (b ++ g))
    (ha : h₂ = h.extend (a ++ (g ++ g'))) (hinstances : a.instances.length = b.instances.length)
    (hlists : a.lists.length = b.lists.length) :
    h₂.instances.size = h₁.instances.size + g'.instances.length ∧
      h₂.lists.size = h₁.lists.size + g'.lists.length := by
  rw [ha, hb]
  simp only [Heap.size_instances_extend, Heap.size_lists_extend, Growth.instances_append,
    Growth.lists_append, List.length_append]
  omega

theorem Heap.newInstance_eq (r : RecordRef) (fields : List Value) :
    h.newInstance r fields = (.object r h.instances.size, h.extend (.ofInstance fields)) := by
  simp [Heap.newInstance, Heap.extend, Growth.ofInstance]

theorem Heap.newList_eq (items : List Value) :
    h.newList items = (.list h.lists.size, h.extend (.ofList items)) := by
  simp [Heap.newList, Heap.extend, Growth.ofList]

/-- The first new entry of a table is changed. -/
theorem modify_append_cons {β : Type} (xs : Array β) (y : β) (ys : List β) (f : β → β) :
    (xs ++ (y :: ys).toArray).modify xs.size f = xs ++ (f y :: ys).toArray := by
  apply Array.ext_getElem?
  intro k
  rw [Array.getElem?_modify]
  by_cases hk : xs.size = k
  · subst hk
    simp
  · rw [if_neg hk]
    rcases Nat.lt_or_gt_of_ne hk with hlt | hlt
    · obtain ⟨n, rfl⟩ : ∃ n, k = xs.size + (n + 1) := ⟨k - xs.size - 1, by omega⟩
      simp [Array.getElem?_append_right]
    · simp [Array.getElem?_append_left hlt]

/-- A field of the first new instance is set. -/
theorem Heap.setField?_extend {fields : List Value} {k : Nat} (hk : k < fields.length) (v : Value) :
    (h.extend (.ofInstance fields ++ g)).setField? h.instances.size k v
      = some (h.extend (.ofInstance (fields.set k v) ++ g)) := by
  have hfields : (h.extend (.ofInstance fields ++ g)).fields h.instances.size = fields.toArray := by
    simp [Heap.fields, Heap.extend, Growth.append_eq, Growth.ofInstance]
  rw [Heap.setField?, hfields, if_pos (by simpa using hk)]
  simp [Heap.extend, Growth.append_eq, Growth.ofInstance, modify_append_cons]

/-- Elements are appended to the first new list. -/
theorem Heap.pushAll_extend (items more : List Value) :
    (h.extend (.ofList items ++ g)).pushAll h.lists.size more
      = h.extend (.ofList (items ++ more) ++ g) := by
  simp [Heap.pushAll, Heap.extend, Growth.append_eq, Growth.ofList, modify_append_cons]

theorem length_fieldValues (defaults : List Value) (bound : List (Nat × Value)) :
    (fieldValues defaults bound).length = defaults.length := by
  simp [fieldValues]

theorem fieldValues_nil (defaults : List Value) : fieldValues defaults [] = defaults := by
  apply List.ext_getElem?
  simp [fieldValues]

/-- One more binding sets its field. -/
theorem fieldValues_append (defaults : List Value) (bound : List (Nat × Value)) (k : Nat)
    (v : Value) :
    (fieldValues defaults bound).set k v = fieldValues defaults (bound ++ [(k, v)]) := by
  apply List.ext_getElem?
  intro n
  rw [List.getElem?_set]
  by_cases hn : k = n
  · subst hn
    simp only [fieldValues, List.length_mapIdx, List.reverse_append, List.reverse_singleton,
      List.singleton_append, List.getElem?_mapIdx, List.lookup_cons, beq_self_eq_true,
      Option.getD_some, ↓reduceIte]
    by_cases hk : k < defaults.length
    · simp [hk]
    · simp [hk]
  · simp [fieldValues, hn, List.lookup_cons, beq_eq_false_iff_ne.mpr (Ne.symm hn)]

end Heaps

/-! ## Running -/

/-- The second state has this heap; slots below `bound` are as in the first one, and so is the rest
of the world, apart from recorded calls. -/
structure Machine.Steps (bound : Nat) (heap : Heap) (m m' : Machine) : Prop where
  size : m'.slots.size = m.slots.size
  slots : ∀ k < bound, m'.slots[k]? = m.slots[k]?
  world : ∃ calls, m'.world = { m.world with heap := heap, calls := calls }

/-- The arguments are in the first slots, and there are the slots and constants that code emitted up
to `s` uses. -/
structure Frame.Ready (args : List Value) (s : EmitState) (f : Frame) (m : Machine) : Prop where
  arguments : ∀ (i : Nat) (v : Value), args[i]? = some v → m.slots[i]? = some v
  room : s.slots ≤ m.slots.size
  pool : s.pool.Extends f.scope.program.pool

namespace Machine.Steps

variable {bound bound' : Nat} {heap heap' : Heap} {m m₁ m' : Machine}

theorem refl (bound : Nat) (m : Machine) : m.Steps bound m.world.heap m :=
  ⟨rfl, fun _ _ => rfl, m.world.calls, rfl⟩

theorem trans (h : m.Steps bound heap m₁) (h' : m₁.Steps bound' heap' m')
    (hle : bound ≤ bound') : m.Steps bound heap' m' := by
  obtain ⟨calls, hw⟩ := h.world
  obtain ⟨calls', hw'⟩ := h'.world
  refine ⟨h'.size.trans h.size, fun k hk => ?_, calls', ?_⟩
  · exact (h'.slots k (Nat.lt_of_lt_of_le hk hle)).trans (h.slots k hk)
  · rw [hw', hw]

theorem heap_eq (h : m.Steps bound heap m') : m'.world.heap = heap := by
  obtain ⟨calls, hw⟩ := h.world
  rw [hw]

theorem ready {args : List Value} {s : EmitState} {f : Frame} (h : m.Steps bound heap m')
    (hf : f.Ready args s m) (hargs : args.length ≤ bound) : f.Ready args s m' := by
  refine ⟨fun i v hv => ?_, h.size ▸ hf.room, hf.pool⟩
  have hi := (List.getElem?_eq_some_iff.mp hv).1
  rw [h.slots i (Nat.lt_of_lt_of_le hi hargs), hf.arguments i v hv]

/-- A change of the heap alone. -/
theorem ofWorld (bound : Nat) (m : Machine) (heap : Heap) (calls : List CallRecord) :
    m.Steps bound heap ⟨m.slots, { m.world with heap := heap, calls := calls }⟩ :=
  ⟨rfl, fun _ _ => rfl, calls, rfl⟩

/-- A slot that is not reserved yet is set. -/
theorem ofSlot (m : Machine) (slot : Nat) (v : Value) :
    m.Steps slot m.world.heap { m with slots := m.slots.setIfInBounds slot v } := by
  refine ⟨by simp, fun k hk => ?_, m.world.calls, rfl⟩
  exact Array.getElem?_setIfInBounds_ne (Nat.ne_of_gt hk)

end Machine.Steps

theorem Frame.Ready.mono {args : List Value} {s s' : EmitState} {f : Frame} {m : Machine}
    (h : f.Ready args s' m) (hg : s.Grows s') : f.Ready args s m :=
  ⟨h.arguments, Nat.le_trans hg.slots h.room, hg.pool.trans h.pool⟩

/-- A host function that is done leaves its heap. -/
theorem callWith_eq_ok (schema : Schema) {host : Host}
    (invoke : FunctionRef → List Value → Eval Value) {g : HostRef} {args : List Value} {w : World}
    {v : Value} {heap : Heap}
    (h : host g args w.heap (⟨g, args, w.heap⟩ :: w.calls) = .done (.ok v) heap) :
    callWith schema host invoke g args w
      = .ok v { w with heap := heap, calls := ⟨g, args, w.heap⟩ :: w.calls } := by
  have hmodify {β : Type} (f : World → World) (k : PUnit → Eval β) :
      (modify f >>= k) w = k () (f w) := rfl
  rw [callWith, hmodify, get_bind]
  simp only [h]
  rfl

theorem hostCall_eq_ok (schema : Schema) (arrayLimit : Nat) {host : Host} (reentries : Nat)
    {g : HostRef} {args : List Value} {w : World} {v : Value} {heap : Heap}
    (h : host g args w.heap (⟨g, args, w.heap⟩ :: w.calls) = .done (.ok v) heap) :
    hostCall schema arrayLimit host reentries g args w
      = .ok v { w with heap := heap, calls := ⟨g, args, w.heap⟩ :: w.calls } := by
  cases reentries with
  | zero => exact callWith_eq_ok schema _ h
  | succ n => exact callWith_eq_ok schema _ h

/-- A value is made on the heap. -/
theorem Exec.alloc_eq_ok {make : Heap → Value × Heap} {m : Machine} {v : Value} {heap : Heap}
    (h : make m.world.heap = (v, heap)) :
    Exec.ofEval (Eval.alloc make) m = .ok v ⟨m.slots, { m.world with heap := heap }⟩ := by
  have halloc : Eval.alloc make m.world
      = .ok (make m.world.heap).1 { m.world with heap := (make m.world.heap).2 } := rfl
  rw [Exec.ofEval, halloc, h]

section Builds

variable (cx : EmitContext) (scope : EmitScope) (run : Context) (args : List Value)

/-- The tree compiles. Wherever its code runs, it gives the value and makes the heap grow as `make`
says, and it leaves the slots alone that were reserved before. -/
def Node.Builds (n : Tree) (make : (i j : Nat) → Value × Growth) : Prop :=
  ∀ s, args.length ≤ s.slots → ∃ code s', n.emit cx scope s = .ok (code, s') ∧
    ∀ f m, f.Ready args s' m →
      let made := make m.world.heap.instances.size m.world.heap.lists.size
      ∃ m', code.run run f m = .ok made.1 m' ∧
        m.Steps s.slots (m.world.heap.extend made.2) m'

/-- The trees compile, and their code gives the values and makes the heap grow as `make` says. -/
def Node.BuildsAll (ns : List Tree) (make : (i j : Nat) → List Value × Growth) : Prop :=
  ∀ s, args.length ≤ s.slots → ∃ codes s', Node.emitAll cx scope ns s = .ok (codes, s') ∧
    ∀ f m, f.Ready args s' m →
      let made := make m.world.heap.instances.size m.world.heap.lists.size
      ∃ m', Code.runAll run f codes m = .ok made.1 m' ∧
        m.Steps s.slots (m.world.heap.extend made.2) m'

variable {cx scope run args}

/-- A tree that only computes. -/
theorem Node.Computes.builds {n : Tree} {v : Value}
    (h : ∀ heap, n.Computes cx scope args heap (.ok v)) :
    n.Builds cx scope run args fun _ _ => (v, {}) := by
  intro s _
  obtain ⟨code, s', hemit, -⟩ := h {} s
  refine ⟨code, s', hemit, fun f m hf => ?_⟩
  obtain ⟨code', s'', hemit', hrun⟩ := h m.world.heap s
  cases hemit.symm.trans hemit'
  refine ⟨m, hrun run f m ⟨hf.arguments, rfl, hf.pool⟩, ?_⟩
  rw [Heap.extend_empty]
  exact .refl _ m

theorem Node.builds_newRecord (id : Nat) (r : RecordRef) :
    Node.Builds cx scope run args (.newDefault id (.record r) []) fun i _ =>
      (.object r i, .ofInstance (cx.schema.defaults r)) := by
  intro s _
  refine ⟨.newInstance r (cx.schema.defaults r), s, rfl, fun f m _ => ?_⟩
  exact ⟨_, Exec.alloc_eq_ok (Heap.newInstance_eq r _), .ofWorld _ m _ m.world.calls⟩

theorem Node.builds_newList (id : Nat) (element : Ty) :
    Node.Builds cx scope run args (.newDefault id (.list element) []) fun _ j =>
      (.list j, .ofList []) := by
  intro s _
  refine ⟨.newList, s, rfl, fun f m _ => ?_⟩
  exact ⟨_, Exec.alloc_eq_ok (Heap.newList_eq []), .ofWorld _ m _ m.world.calls⟩

/-- Trees are built one after the other. -/
theorem Node.BuildsAll.nil : Node.BuildsAll cx scope run args [] fun _ _ => ([], {}) := by
  intro s _
  refine ⟨[], s, rfl, fun f m _ => ⟨m, rfl, ?_⟩⟩
  rw [Heap.extend_empty]
  exact .refl _ m

theorem Node.BuildsAll.cons {n : Tree} {ns : List Tree} {make : (i j : Nat) → Value × Growth}
    {makeAll : (i j : Nat) → List Value × Growth} (hn : n.Builds cx scope run args make)
    (hns : Node.BuildsAll cx scope run args ns makeAll) :
    Node.BuildsAll cx scope run args (n :: ns) fun i j =>
      let first := make i j
      let rest := makeAll (i + first.2.instances.length) (j + first.2.lists.length)
      (first.1 :: rest.1, first.2 ++ rest.2) := by
  intro s hargs
  obtain ⟨code, s₁, hemit, hrun⟩ := hn s hargs
  have hg₁ := Node.emit_grows n hemit
  have hargs₁ := Nat.le_trans hargs hg₁.slots
  obtain ⟨codes, s', hemits, hruns⟩ := hns s₁ hargs₁
  have hg' := Node.emitAll_grows ns hemits
  refine ⟨code :: codes, s', Node.emitAll_cons.mpr ⟨code, s₁, codes, hemit, hemits, rfl⟩, ?_⟩
  intro f m hf
  obtain ⟨m₁, hm₁, hsteps₁⟩ := hrun f m (hf.mono hg')
  obtain ⟨m₂, hm₂, hsteps₂⟩ := hruns f m₁ (hsteps₁.ready hf hargs)
  rw [hsteps₁.heap_eq, Heap.size_instances_extend, Heap.size_lists_extend] at hm₂ hsteps₂
  refine ⟨m₂, ?_, ?_⟩
  · rw [Code.runAll, bind_of_ok hm₁, bind_of_ok hm₂]
    rfl
  · rw [Heap.extend_extend] at hsteps₂
    exact hsteps₁.trans hsteps₂ hg₁.slots

/-! ### Values under construction -/

/-- A new value waits in a slot until its contents are set. -/
theorem Code.run_assemble {f : Frame} {s' : EmitState} {bound slot : Nat} {new : Code}
    {steps : List Code} {m : Machine} {v : Value} {heap heap' : Heap} (hf : f.Ready args s' m)
    (hargs : args.length ≤ bound) (hbound : bound ≤ slot) (hslot : slot < s'.slots)
    (hnew : ∃ m₁, new.run run f m = .ok v m₁ ∧ m.Steps bound heap m₁)
    (hsteps : ∀ m₂, f.Ready args s' m₂ → m₂.slots[slot]? = some v → m₂.world.heap = heap →
      ∃ m', Code.runSteps run f steps m₂ = .ok () m' ∧ m₂.Steps (slot + 1) heap' m') :
    ∃ m', (Code.assemble slot new steps).run run f m = .ok v m' ∧ m.Steps bound heap' m' := by
  obtain ⟨m₁, hm₁, hsteps₁⟩ := hnew
  have hroom : slot < m₁.slots.size := by
    rw [hsteps₁.size]
    exact Nat.lt_of_lt_of_le hslot hf.room
  have hstore : Exec.storeSlot slot v m₁
      = .ok () { m₁ with slots := m₁.slots.setIfInBounds slot v } := rfl
  have hsteps₂ := hsteps₁.trans (.ofSlot m₁ slot v) hbound
  have hvalue : (m₁.slots.setIfInBounds slot v)[slot]? = some v :=
    Array.getElem?_setIfInBounds_self_of_lt hroom
  obtain ⟨m', hm', hsteps'⟩ := hsteps _ (hsteps₂.ready hf hargs) hvalue hsteps₁.heap_eq
  refine ⟨m', ?_, hsteps₂.trans hsteps' (Nat.le_succ_of_le hbound)⟩
  rw [Code.run, bind_of_ok hm₁, bind_of_ok hstore, bind_of_ok hm']
  refine Exec.loadSlot_of_getElem? ?_
  rw [hsteps'.slots slot (Nat.lt_succ_self slot), hvalue]

/-- A step that leaves the slots `m₁` and the heap `heap` is taken, then the others. -/
theorem Code.runSteps_cons {f : Frame} {s' : EmitState} {c : Code} {cs : List Code}
    {bound bound' : Nat} {v : Value} {heap₁ heap heap' : Heap} {calls : List CallRecord}
    {m m₁ : Machine} (hf : f.Ready args s' m) (hargs : args.length ≤ bound) (hle : bound ≤ bound')
    (hbefore : m.Steps bound heap₁ m₁)
    (hc : c.run run f m = .ok v ⟨m₁.slots, { m₁.world with heap := heap, calls := calls }⟩)
    (hcs : ∀ m₂, f.Ready args s' m₂ → m₂.slots = m₁.slots → m₂.world.heap = heap →
      ∃ m', Code.runSteps run f cs m₂ = .ok () m' ∧ m₂.Steps bound' heap' m') :
    ∃ m', Code.runSteps run f (c :: cs) m = .ok () m' ∧ m.Steps bound heap' m' := by
  have hstep := hbefore.trans (.ofWorld bound m₁ heap calls) (Nat.le_refl _)
  obtain ⟨m', hm', hsteps⟩ := hcs _ (hstep.ready hf hargs) rfl rfl
  refine ⟨m', ?_, hstep.trans hsteps hle⟩
  rw [Code.runSteps, bind_of_ok hc]
  exact hm'

/-! ### Setting fields -/

/-- A field of the object in a slot is set. -/
theorem Code.run_setField {f : Frame} {slot index id : Nat} (name : String) (ty : Ty) {value : Code}
    {m m₁ : Machine} {v : Value} {r : RecordRef} {heap : Heap}
    (hvalue : value.run run f m = .ok v m₁) (htarget : m₁.slots[slot]? = some (.object r id))
    (hset : m₁.world.heap.setField? id index v = some heap) :
    (Code.setMember slot (.field name index ty) value).run run f m
      = .ok .unit ⟨m₁.slots, { m₁.world with heap := heap }⟩ := by
  have hwrite : Exec.ofEval (run.writeMember (.field name index ty) (.object r id) v) m₁
      = .ok () ⟨m₁.slots, { m₁.world with heap := heap }⟩ := by
    rw [Exec.ofEval, run.writeMember_field name ty r hset]
  rw [Code.run, bind_of_ok hvalue, bind_of_ok (Exec.loadSlot_of_getElem? htarget),
    bind_of_ok hwrite]
  rfl

variable (cx scope run args) in
/-- The bindings compile. While their code runs, the object in the slot is the first one after the
heap `h`; the fields bound before hold the values in `bound`, and afterwards those of `make` as
well. -/
def MemberBinding.Builds (r : RecordRef) (bindings : List (MemberBinding Value))
    (make : (i j : Nat) → List (Nat × Value) × Growth) : Prop :=
  ∀ s slot, slot < s.slots → args.length ≤ s.slots → ∃ codes s',
    MemberBinding.emitAll cx scope slot bindings s = .ok (codes, s') ∧
    ∀ (f : Frame) (m : Machine) (h : Heap) (g : Growth) bound, f.Ready args s' m →
      m.slots[slot]? = some (.object r h.instances.size) →
      m.world.heap
        = h.extend (.ofInstance (fieldValues (cx.schema.defaults r) bound) ++ g) →
      let made := make m.world.heap.instances.size m.world.heap.lists.size
      ∃ m', Code.runSteps run f codes m = .ok () m' ∧
        m.Steps s.slots (h.extend (.ofInstance (fieldValues (cx.schema.defaults r)
          (bound ++ made.1)) ++ (g ++ made.2))) m'

theorem MemberBinding.Builds.nil (r : RecordRef) :
    MemberBinding.Builds cx scope run args r [] fun _ _ => ([], {}) := by
  intro s slot _ _
  refine ⟨[], s, rfl, fun f m h g bound _ _ hheap => ⟨m, rfl, ?_⟩⟩
  rw [List.append_nil, Growth.append_empty, ← hheap]
  exact .refl _ m

/-- One more field is set. -/
theorem MemberBinding.Builds.cons {r : RecordRef} (name : String) {index : Nat} (ty : Ty) {x : Tree}
    {bindings : List (MemberBinding Value)} {make : (i j : Nat) → Value × Growth}
    {makeAll : (i j : Nat) → List (Nat × Value) × Growth}
    (hindex : index < (cx.schema.defaults r).length) (hx : x.Builds cx scope run args make)
    (hrest : MemberBinding.Builds cx scope run args r bindings makeAll) :
    MemberBinding.Builds cx scope run args r (.assign (.field name index ty) x :: bindings)
      fun i j =>
        let first := make i j
        let others := makeAll (i + first.2.instances.length) (j + first.2.lists.length)
        ((index, first.1) :: others.1, first.2 ++ others.2) := by
  intro s slot hslot hargs
  obtain ⟨value, s₁, hemit, hrun⟩ := hx s hargs
  have hg₁ := Node.emit_grows x hemit
  obtain ⟨codes, s', hemits, hruns⟩ := hrest s₁ slot (Nat.lt_of_lt_of_le hslot hg₁.slots)
    (Nat.le_trans hargs hg₁.slots)
  have hg' := MemberBinding.emitAll_grows bindings hemits
  refine ⟨.setMember slot (.field name index ty) value :: codes, s', ?_, ?_⟩
  · simp only [MemberBinding.emitAll, checkWritable, pure_bind]
    exact Emit.map₂_eq_ok.mpr ⟨value, s₁, codes, hemit, hemits, rfl⟩
  intro f m h g bound hf htarget hheap
  obtain ⟨m₁, hm₁, hsteps₁⟩ := hrun f m (hf.mono hg')
  simp only
  generalize make m.world.heap.instances.size m.world.heap.lists.size = first at hm₁ hsteps₁ ⊢
  -- the value may have made the heap grow, but the object is still the first one after `h`
  have hheap₁ := hsteps₁.heap_eq
  rw [hheap, Heap.extend_extend, Growth.append_assoc] at hheap₁
  have htarget₁ : m₁.slots[slot]? = some (.object r h.instances.size) := by
    rw [hsteps₁.slots slot hslot, htarget]
  have hset : m₁.world.heap.setField? h.instances.size index first.1
      = some (h.extend (.ofInstance (fieldValues (cx.schema.defaults r)
          (bound ++ [(index, first.1)])) ++ (g ++ first.2))) := by
    rw [hheap₁, Heap.setField?_extend (by rwa [length_fieldValues]), fieldValues_append]
  refine Code.runSteps_cons hf hargs hg₁.slots hsteps₁ (Code.run_setField name ty hm₁ htarget₁ hset)
    fun m₂ hf₂ hslots hheap₂ => ?_
  obtain ⟨hinstances, hlists⟩ := Heap.sizes_of_extend hheap hheap₂ rfl rfl
  have hothers := hruns f m₂ h (g ++ first.2) (bound ++ [(index, first.1)]) hf₂
    (hslots ▸ htarget₁) hheap₂
  simpa only [hinstances, hlists, List.append_assoc, List.singleton_append, Growth.append_assoc]
    using hothers

/-- A record with fields set on it. -/
theorem Node.builds_object (id newId : Nat) {r : RecordRef} {bindings : List (MemberBinding Value)}
    {make : (i j : Nat) → List (Nat × Value) × Growth}
    (h : MemberBinding.Builds cx scope run args r bindings make) :
    Node.Builds cx scope run args (.memberInit id (.newDefault newId (.record r) []) bindings)
      fun i j =>
        let inner := make (i + 1) j
        (.object r i, .ofInstance (fieldValues (cx.schema.defaults r) inner.1) ++ inner.2) := by
  intro s hargs
  have hnew : Node.Builds cx scope run args _ _ := Node.builds_newRecord newId r
  obtain ⟨new, s₁, hemit, hrun⟩ := hnew s hargs
  have hg₁ := Node.emit_grows _ hemit
  obtain ⟨steps, s', hemits, hruns⟩ := h { s₁ with slots := s₁.slots + 1 } s₁.slots
    (Nat.lt_succ_self _) (Nat.le_succ_of_le (Nat.le_trans hargs hg₁.slots))
  have hg' := MemberBinding.emitAll_grows bindings hemits
  refine ⟨.assemble s₁.slots new steps, s', ?_, fun f m hf => ?_⟩
  · rw [Node.memberInit, Node.emit]
    exact Payload.emit_memberInit.mpr ⟨rfl, new, s₁, steps, hemit, hemits, rfl⟩
  · have hf₁ := hf.mono ((EmitState.Grows.temporary s₁).trans hg')
    refine Code.run_assemble hf hargs hg₁.slots (Nat.lt_of_succ_le hg'.slots) (hrun f m hf₁)
      fun m₂ hf₂ hvalue hheap => ?_
    have hsteps := hruns f m₂ m.world.heap {} [] hf₂ hvalue
      (by rw [hheap, fieldValues_nil, Growth.append_empty])
    simpa [hheap] using hsteps

/-! ### Adding elements -/

/-- Elements are added to the list in a slot. -/
theorem Code.run_append {f : Frame} {slot id : Nat} {add : Method} {argCodes : List Code}
    {m m₁ : Machine} {vs : List Value} {u : Value} {w : World}
    (htarget : m.slots[slot]? = some (.list id))
    (hargs : Code.runAll run f argCodes m = .ok vs m₁)
    (hcall : run.host add.impl (.list id :: vs) m₁.world = .ok u w) :
    (Code.append slot add argCodes).run run f m = .ok .unit ⟨m₁.slots, w⟩ := by
  have hadd : Exec.ofEval (run.host add.impl (.list id :: vs)) m₁ = .ok u ⟨m₁.slots, w⟩ := by
    rw [Exec.ofEval, hcall]
  have hpresent : Exec.ofExcept (Value.list id).present m = .ok (.list id) m := rfl
  rw [Code.run, bind_of_ok (Exec.loadSlot_of_getElem? htarget), bind_of_ok hpresent,
    bind_of_ok hargs, bind_of_ok hadd]
  rfl

variable (cx scope run args) in
/-- The initialisers compile. While their code runs, the list in the slot is the first one after the
heap `h`; its elements are the ones in `items`, and afterwards those of `make` as well. -/
def ElementInit.Builds (inits : List (ElementInit Value))
    (make : (i j : Nat) → List Value × Growth) : Prop :=
  ∀ s slot, slot < s.slots → args.length ≤ s.slots → ∃ codes s',
    ElementInit.emitAll cx scope slot inits s = .ok (codes, s') ∧
    ∀ (f : Frame) (m : Machine) (h : Heap) (g : Growth) items, f.Ready args s' m →
      m.slots[slot]? = some (.list h.lists.size) →
      m.world.heap = h.extend (.ofList items ++ g) →
      let made := make m.world.heap.instances.size m.world.heap.lists.size
      ∃ m', Code.runSteps run f codes m = .ok () m' ∧
        m.Steps s.slots (h.extend (.ofList (items ++ made.1) ++ (g ++ made.2))) m'

theorem ElementInit.Builds.nil :
    ElementInit.Builds cx scope run args [] fun _ _ => ([], {}) := by
  intro s slot _ _
  refine ⟨[], s, rfl, fun f m h g items _ _ hheap => ⟨m, rfl, ?_⟩⟩
  rw [List.append_nil, Growth.append_empty, ← hheap]
  exact .refl _ m

/-- One more call of an `add` method. -/
theorem ElementInit.Builds.cons {schema : Schema} {arrayLimit : Nat} {host : Host} {reentries : Nat}
    (hrun : run.host = hostCall schema arrayLimit host reentries) {add : Method}
    (hstatic : add.isStatic = false) {count : Nat} (hadd : host.Appends add count) {xs : List Tree}
    {inits : List (ElementInit Value)} {make makeAll : (i j : Nat) → List Value × Growth}
    (hcount : ∀ i j, (make i j).1.length = count)
    (hxs : Node.BuildsAll cx scope run args xs make)
    (hrest : ElementInit.Builds cx scope run args inits makeAll) :
    ElementInit.Builds cx scope run args (.mk add xs :: inits) fun i j =>
      let first := make i j
      let others := makeAll (i + first.2.instances.length) (j + first.2.lists.length)
      (first.1 ++ others.1, first.2 ++ others.2) := by
  intro s slot hslot hargs
  obtain ⟨argCodes, s₁, hemit, hruns⟩ := hxs s hargs
  have hg₁ := Node.emitAll_grows xs hemit
  obtain ⟨codes, s', hemits, hrunRest⟩ := hrest s₁ slot (Nat.lt_of_lt_of_le hslot hg₁.slots)
    (Nat.le_trans hargs hg₁.slots)
  have hg' := ElementInit.emitAll_grows inits hemits
  refine ⟨.append slot add argCodes :: codes, s', ?_, ?_⟩
  · exact ElementInit.emitAll_cons.mpr ⟨hstatic, argCodes, s₁, codes, hemit, hemits, rfl⟩
  intro f m h g items hf htarget hheap
  obtain ⟨m₁, hm₁, hsteps₁⟩ := hruns f m (hf.mono hg')
  have hlength := hcount m.world.heap.instances.size m.world.heap.lists.size
  simp only
  generalize make m.world.heap.instances.size m.world.heap.lists.size = first at *
  have hheap₁ := hsteps₁.heap_eq
  rw [hheap, Heap.extend_extend, Growth.append_assoc] at hheap₁
  obtain ⟨u, hdone⟩ := hadd h.lists.size first.1 m₁.world.heap
    (⟨add.impl, .list h.lists.size :: first.1, m₁.world.heap⟩ :: m₁.world.calls) hlength
  have hcall := hostCall_eq_ok schema arrayLimit reentries hdone
  rw [← hrun] at hcall
  have hadded := Code.run_append htarget hm₁ hcall
  rw [hheap₁, Heap.pushAll_extend] at hadded
  refine Code.runSteps_cons hf hargs hg₁.slots hsteps₁ hadded fun m₂ hf₂ hslots hheap₂ => ?_
  have htarget₂ : m₂.slots[slot]? = some (.list h.lists.size) := by
    rw [hslots, hsteps₁.slots slot hslot, htarget]
  obtain ⟨hinstances, hlists⟩ := Heap.sizes_of_extend hheap hheap₂ rfl rfl
  have hothers := hrunRest f m₂ h (g ++ first.2) (items ++ first.1) hf₂ htarget₂ hheap₂
  simpa only [hinstances, hlists, List.append_assoc, Growth.append_assoc] using hothers

/-- A list with elements added to it. -/
theorem Node.builds_list (id newId : Nat) (element : Ty) {inits : List (ElementInit Value)}
    {make : (i j : Nat) → List Value × Growth}
    (h : ElementInit.Builds cx scope run args inits make) :
    Node.Builds cx scope run args (.listInit id (.newDefault newId (.list element) []) inits)
      fun i j =>
        let inner := make i (j + 1)
        (.list j, .ofList inner.1 ++ inner.2) := by
  intro s hargs
  have hnew : Node.Builds cx scope run args _ _ := Node.builds_newList newId element
  obtain ⟨new, s₁, hemit, hrun⟩ := hnew s hargs
  have hg₁ := Node.emit_grows _ hemit
  obtain ⟨steps, s', hemits, hruns⟩ := h { s₁ with slots := s₁.slots + 1 } s₁.slots
    (Nat.lt_succ_self _) (Nat.le_succ_of_le (Nat.le_trans hargs hg₁.slots))
  have hg' := ElementInit.emitAll_grows inits hemits
  refine ⟨.assemble s₁.slots new steps, s', ?_, fun f m hf => ?_⟩
  · rw [Node.listInit, Node.emit]
    exact Payload.emit_listInit.mpr ⟨rfl, new, s₁, steps, hemit, hemits, rfl⟩
  · have hf₁ := hf.mono ((EmitState.Grows.temporary s₁).trans hg')
    refine Code.run_assemble hf hargs hg₁.slots (Nat.lt_of_succ_le hg'.slots) (hrun f m hf₁)
      fun m₂ hf₂ hvalue hheap => ?_
    have hsteps := hruns f m₂ m.world.heap {} [] hf₂ hvalue (by rw [hheap, Growth.append_empty])
    simpa [hheap] using hsteps

end Builds

/-! ## Blueprints are built -/

theorem Blueprint.length_makeAll (schema : Schema) (ρ : Nat → Value) (i j : Nat) :
    (bs : List Blueprint) → (Blueprint.makeAll schema ρ i j bs).1.length = bs.length
  | [] => rfl
  | _ :: bs => congrArg (· + 1) (Blueprint.length_makeAll schema ρ _ _ bs)

/-- A field that is found by its name is one of the fields of an instance. -/
theorem Schema.lt_length_defaults {schema : Schema} {r : RecordRef} {name name' : String}
    {index : Nat} {ty : Ty}
    (h : schema.member? (.record r) name = some (.field name' index ty)) :
    index < (schema.defaults r).length := by
  simp only [Schema.member?, Ty.record?, Ty.nonNullable, Option.bind_eq_bind, Option.bind_some,
    Option.bind_eq_some_iff, Option.pure_def, Option.some.injEq, Member.field.injEq] at h
  obtain ⟨i, -, field, hfield, -, rfl, -⟩ := h
  rw [Schema.defaults, List.length_map]
  exact (List.getElem?_eq_some_iff.mp hfield).1

section Blueprints

variable {cx : EmitContext} {scope : EmitScope} {run : Context} {args : List Value}
  {arrayLimit : Nat} {host : Host} {reentries : Nat} {ρ : Nat → Value}

mutual

theorem Blueprint.builds (hrun : run.host = hostCall cx.schema arrayLimit host reentries) :
    (b : Blueprint) → b.Valid cx.schema host → ReadsSlots cx.schema scope args ρ b.parameters →
    b.node.Builds cx scope run args (fun i j => b.make cx.schema ρ i j)
  | .constant id v ty, _, _ => by
      simp only [Blueprint.node, Blueprint.make]
      exact Node.Computes.builds fun _ => .constant id v ty
  | .parameter id p, _, hreads => by
      rw [Blueprint.parameters] at hreads
      obtain ⟨-, i, haddress, hvalue⟩ := hreads p List.mem_cons_self
      simp only [Blueprint.node, Blueprint.make]
      exact Node.Computes.builds fun _ => .parameter id haddress hvalue
  | .new id r, _, _ => by
      simp only [Blueprint.node, Blueprint.make]
      exact Node.builds_newRecord id r
  | .object id newId r fields, hvalid, hreads => by
      rw [Blueprint.parameters] at hreads
      rw [Blueprint.Valid] at hvalid
      simp only [Blueprint.node, Blueprint.make]
      have hfields := FieldPlan.builds hrun r fields hvalid hreads
      exact (Node.builds_object id newId hfields :)
  | .list id newId element adds, hvalid, hreads => by
      rw [Blueprint.parameters] at hreads
      rw [Blueprint.Valid] at hvalid
      simp only [Blueprint.node, Blueprint.make]
      have hadds := AddPlan.builds hrun adds hvalid hreads
      exact (Node.builds_list id newId element hadds :)

theorem Blueprint.buildsAll (hrun : run.host = hostCall cx.schema arrayLimit host reentries) :
    (bs : List Blueprint) → Blueprint.ValidAll cx.schema host bs →
    ReadsSlots cx.schema scope args ρ (Blueprint.parametersAll bs) →
    Node.BuildsAll cx scope run args (Blueprint.nodes bs)
      (fun i j => Blueprint.makeAll cx.schema ρ i j bs)
  | [], _, _ => by
      simp only [Blueprint.nodes, Blueprint.makeAll]
      exact .nil
  | b :: bs, hvalid, hreads => by
      rw [Blueprint.parametersAll] at hreads
      rw [Blueprint.ValidAll] at hvalid
      simp only [Blueprint.nodes, Blueprint.makeAll]
      have hb := Blueprint.builds hrun b hvalid.1 hreads.left
      have hbs := Blueprint.buildsAll hrun bs hvalid.2 hreads.right
      exact (Node.BuildsAll.cons hb hbs :)

theorem FieldPlan.builds (hrun : run.host = hostCall cx.schema arrayLimit host reentries)
    (r : RecordRef) : (fields : List FieldPlan) → FieldPlan.Valid cx.schema host r fields →
    ReadsSlots cx.schema scope args ρ (FieldPlan.parameters fields) →
    MemberBinding.Builds cx scope run args r (FieldPlan.bindings fields)
      (fun i j => FieldPlan.make cx.schema ρ i j fields)
  | [], _, _ => by
      simp only [FieldPlan.bindings, FieldPlan.make]
      exact .nil r
  | .mk name _ ty value :: rest, hvalid, hreads => by
      rw [FieldPlan.parameters] at hreads
      rw [FieldPlan.Valid] at hvalid
      obtain ⟨hfield, hvalue, hrest⟩ := hvalid
      simp only [FieldPlan.bindings, FieldPlan.make]
      have hfirst := Blueprint.builds hrun value hvalue hreads.left
      have hothers := FieldPlan.builds hrun r rest hrest hreads.right
      exact (MemberBinding.Builds.cons name ty (Schema.lt_length_defaults hfield) hfirst hothers :)

theorem AddPlan.builds (hrun : run.host = hostCall cx.schema arrayLimit host reentries) :
    (adds : List AddPlan) → AddPlan.Valid cx.schema host adds →
    ReadsSlots cx.schema scope args ρ (AddPlan.parameters adds) →
    ElementInit.Builds cx scope run args (AddPlan.inits adds)
      (fun i j => AddPlan.make cx.schema ρ i j adds)
  | [], _, _ => by
      simp only [AddPlan.inits, AddPlan.make]
      exact .nil
  | .mk add xs :: rest, hvalid, hreads => by
      rw [AddPlan.parameters] at hreads
      rw [AddPlan.Valid] at hvalid
      obtain ⟨hstatic, hadd, hxs, hrest⟩ := hvalid
      simp only [AddPlan.inits, AddPlan.make]
      have hfirst := Blueprint.buildsAll hrun xs hxs hreads.left
      have hothers := AddPlan.builds hrun rest hrest hreads.right
      have hcount := (Blueprint.length_makeAll cx.schema ρ · · xs)
      exact (ElementInit.Builds.cons hrun hstatic hadd hcount hfirst hothers :)

end

end Blueprints

/-! ## Evaluations -/

mutual

/-- No parameter is used from inside a lambda or a quote. -/
theorem Blueprint.within_eq_nil {o : Occurrence} :
    (b : Blueprint) → o ∈ b.node.occurrences → o.within = []
  | .constant .., ho | .new .., ho => by cases ho
  | .parameter .., ho => by rw [List.mem_singleton.mp ho]
  | .object _ _ _ fields, ho => FieldPlan.within_eq_nil fields ho
  | .list _ _ _ adds, ho => AddPlan.within_eq_nil adds ho

theorem Blueprint.withinAll_eq_nil {o : Occurrence} :
    (bs : List Blueprint) → o ∈ Node.occurrencesAll (Blueprint.nodes bs) → o.within = []
  | [], ho => by cases ho
  | b :: bs, ho => (List.mem_append.mp ho).elim b.within_eq_nil (Blueprint.withinAll_eq_nil bs)

theorem FieldPlan.within_eq_nil {o : Occurrence} : (fields : List FieldPlan) →
    o ∈ MemberBinding.occurrencesAll (FieldPlan.bindings fields) → o.within = []
  | [], ho => by cases ho
  | .mk _ _ _ value :: rest, ho =>
      (List.mem_append.mp ho).elim value.within_eq_nil (FieldPlan.within_eq_nil rest)

theorem AddPlan.within_eq_nil {o : Occurrence} : (adds : List AddPlan) →
    o ∈ ElementInit.occurrencesAll (AddPlan.inits adds) → o.within = []
  | [], ho => by cases ho
  | .mk _ args :: rest, ho =>
      (List.mem_append.mp ho).elim (Blueprint.withinAll_eq_nil args) (AddPlan.within_eq_nil rest)

end

theorem CodeUnit.run_eq_ok {u : CodeUnit} {cx : Context} {scope : Scope} {depth : UInt32}
    {args : List Value} {w : World} {v : Value} {m : Machine} (hu : u.hoisted = [])
    (h : u.body.run cx ⟨scope, none, depth⟩ ⟨u.slots args, w⟩ = .ok v m) :
    u.run cx scope depth args w = .ok v m.world := by
  simp only [CodeUnit.run, hu, List.isEmpty_nil, ↓reduceIte, h]

/-- Evaluating a lambda around a tree that builds. -/
theorem Environment.eval_of_builds {e : Environment} {args : List Value} {w : World} (id : Nat)
    {l : Lambda Value} {make : (i j : Nat) → Value × Growth}
    (hcaptures : l.captures.ofLambda l.id = [])
    (hargs : checkArguments e.schema l.signature args = .ok ())
    (hlength : args.length ≤ l.params.length)
    (h : ∀ run : Context, run.host = e.call → l.body.Builds ⟨e.schema, l.captures⟩
      (l.emitScope l.captures none 0) run args make) :
    let made := make w.heap.instances.size w.heap.lists.size
    ∃ calls, e.eval (.ofLambda id l) args w
      = (.ok made.1, { w with heap := w.heap.extend made.2, calls := calls }) := by
  -- the code is the same whatever runs it
  obtain ⟨code, s, hemit, -⟩ := h ⟨e.schema, e.arrayLimit, fun _ => e.invoke, e.call⟩ rfl
    (EmitState.enter {} none l) hlength
  obtain ⟨p, cx, hcompile, hpool, -, hhost, henter⟩ := enter_ofLambda (w := w) id hargs hemit
  obtain ⟨code', s', hemit', hrun⟩ := h cx hhost (EmitState.enter {} none l) hlength
  cases hemit.symm.trans hemit'
  have hslots : args.length ≤ s.slots := Nat.le_trans hlength (Node.emit_grows _ hemit).slots
  have hready : Frame.Ready args s ⟨.root p 0, none, 0⟩
      ⟨(l.codeUnit l.captures none s.slots code).slots args, w⟩ := by
    refine ⟨fun i v hv => CodeUnit.getElem?_slots hv, ?_, ?_⟩
    · rw [CodeUnit.size_slots hslots]
      exact Nat.le_refl _
    · rw [← hpool]
      exact .refl _
  obtain ⟨m, hm, hsteps⟩ := hrun _ _ hready
  obtain ⟨calls, hworld⟩ := hsteps.world
  rw [CodeUnit.run_eq_ok (Lambda.hoisted_codeUnit none s.slots code hcaptures) hm, hworld] at henter
  refine ⟨calls, ?_⟩
  unfold Environment.eval
  rw [hcompile]
  simp only [henter]

/-- **Construction builds the described structure.** The value and the new instances and lists are
those of the blueprint, and every instance and list that was there before is as it was. -/
theorem eval_blueprint {e : Environment} {params : List Parameter} {args : List Value}
    {b : Blueprint} (hvalid : b.Valid e.schema e.host)
    (h : Supplies e.schema params args b.parameters) (i j : Nat) (name : Option String)
    (w : World) :
    let made := b.make e.schema (argumentOf params args) w.heap.instances.size w.heap.lists.size
    let heap := w.heap.extend made.2
    (∃ calls, e.eval (.ofLambda i (.mk j name params b.node)) args w
      = (.ok made.1, { w with heap := heap, calls := calls })) ∧
    (∀ k < w.heap.instances.size, heap.instances[k]? = w.heap.instances[k]?) ∧
    (∀ k < w.heap.lists.size, heap.lists[k]? = w.heap.lists[k]?) := by
  have hcaptures : (Lambda.mk j name params b.node).captures.ofLambda j = [] :=
    Lambda.captures_ofLambda_eq_nil (l := .mk j name params b.node) fun _ => b.within_eq_nil
  have hreads := Supplies.readsSlots (l := .mk j name params b.node) h hcaptures
  have hargs := Supplies.checkArguments (l := .mk j name params b.node) h
  have heval := Environment.eval_of_builds (w := w) (l := .mk j name params b.node) i hcaptures
    hargs (Nat.le_of_eq h.conform.length_eq) fun _ hrun => Blueprint.builds hrun b hvalid hreads
  exact ⟨heval, fun _ => Array.getElem?_append_left, fun _ => Array.getElem?_append_left⟩

/-- A stock function that appends does so with any number of arguments. -/
theorem Native.appends_push (schema : Schema) (counter : Nat) {table : Array Native} {add : Method}
    (h : table[add.impl.id]? = some .push) (count : Nat) :
    (Native.host schema counter table).Appends add count := by
  intro id items heap calls _
  refine ⟨.unit, ?_⟩
  rw [Native.host, h]
  rfl

def teamSchema : Schema :=
  ⟨#[⟨"Team", [⟨"open", .bool⟩, ⟨"parts", .list (.record ⟨0, "Team"⟩)⟩], none, none⟩]⟩

/-- A team with two teams in it. Its first field is bound twice, the second time to a parameter. -/
def teamPlan : Blueprint :=
  let team : RecordRef := ⟨0, "Team"⟩
  let add : Method := ⟨⟨0, "add"⟩, some (.list (.record team)), [.record team], .unit⟩
  let inner : Blueprint := .object 1 2 team [.mk "open" 0 .bool (.constant 3 (.bool true) .bool)]
  .object 4 5 team
    [.mk "open" 0 .bool (.constant 6 (.bool true) .bool),
      .mk "parts" 1 (.list (.record team))
        (.list 7 8 (.record team) [.mk add [inner], .mk add [.new 9 team]]),
      .mk "open" 0 .bool (.parameter 10 ⟨0, "x", .bool⟩)]

/-- The new team is the second instance; the inner ones come after it. -/
theorem eval_blueprint_team :
    let e : Environment := ⟨teamSchema, Native.host teamSchema 0 #[.push], 1000, 0⟩
    let w : World := { heap := { instances := #[#[.bool true, .list 0]], lists := #[#[]] } }
    let team : RecordRef := ⟨0, "Team"⟩
    ∃ calls, e.eval (.ofLambda 12 (.mk 11 none [⟨0, "x", .bool⟩] teamPlan.node)) [.bool false] w
      = (.ok (.object team 1), { w with
          heap := { w.heap with
            instances := #[#[.bool true, .list 0], #[.bool false, .list 1], #[.bool true, .null],
              #[.bool false, .null]]
            lists := #[#[], #[.object team 2, .object team 3]] }
          calls := calls }) := by
  intro e w team
  have hvalid : teamPlan.Valid e.schema e.host := by
    have hadd (m : Method) (hm : m.impl.id = 0) : e.host.Appends m 1 := by
      refine Native.appends_push teamSchema 0 ?_ 1
      rw [hm]
      rfl
    refine ⟨rfl, trivial, rfl, ?_, rfl, trivial, trivial⟩
    exact ⟨rfl, hadd _ rfl, ⟨⟨rfl, trivial, trivial⟩, trivial⟩, rfl, hadd _ rfl,
      ⟨trivial, trivial⟩, trivial⟩
  have hsupplies : Supplies e.schema [⟨0, "x", .bool⟩] [.bool false] teamPlan.parameters :=
    { declared := fun _ hp => hp
      identified := by
        intro p hp q hq _
        rw [List.mem_singleton.mp hp, List.mem_singleton.mp hq]
      conform := .cons rfl .nil }
  exact (eval_blueprint hvalid hsupplies 12 11 none w).1

end ExprTree
