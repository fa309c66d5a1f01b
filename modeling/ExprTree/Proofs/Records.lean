import Mathlib.Logic.Relation
import ExprTree.Proofs.Conversions

set_option autoImplicit false

/-! # Records and their bases

A record is declared on its own or derived from one that was declared before, whose fields it takes
over in front of its own. So the fields of a base are the first fields of every record that derives
from it, however long the line of bases is (`Schema.Layered.isPrefix_fields`), and a field that is
found by its name on the base has the same position and type there, even if the derived record
declares the name again. An instance has a slot for each field, which no store changes
(`Heap.Populated.size_fields`). Together, a member of the base reads and writes its own slot of any
instance of a derived record (`derived_records_keep_layout`).
-/

namespace ExprTree

/-! ## Lines of bases -/

namespace Schema

variable {s : Schema}

theorem exists_lineage_eq_cons (s : Schema) (r : RecordRef) :
    ∃ bases, s.lineage r = r :: bases := by
  rw [lineage, lineageFrom]
  cases s.base? r with
  | none => exact ⟨[], rfl⟩
  | some b =>
      show ∃ bases, (if b.index < r.index then r :: s.lineageFrom r.index b else [r]) = _
      split <;> exact ⟨_, rfl⟩

theorem derivesFrom_antisymm {r a : RecordRef} (hr : s.derivesFrom r a = true)
    (ha : s.derivesFrom a r = true) : r = a := by
  rw [derivesFrom_iff] at hr ha
  have hsuffix := lineage_suffix hr
  have hsame := hsuffix.eq_of_length_le (lineage_suffix ha).length_le
  obtain ⟨bases, hbases⟩ := s.exists_lineage_eq_cons a
  obtain ⟨bases', hbases'⟩ := s.exists_lineage_eq_cons r
  rw [hbases, hbases'] at hsame
  exact (List.cons.inj hsame).1.symm

/-- The base of a record is declared earlier, and its fields come first. -/
def Layered (s : Schema) : Prop :=
  ∀ r b, s.base? r = some b → b.index < r.index ∧ s.fields b <+: s.fields r

namespace Layered

theorem mem_lineage_iff (hs : s.Layered) {r a : RecordRef} :
    a ∈ s.lineage r ↔ a = r ∨ ∃ b, s.base? r = some b ∧ a ∈ s.lineage b := by
  show a ∈ s.lineageFrom (r.index + 1) r ↔ _
  rw [lineageFrom]
  cases hb : s.base? r with
  | none => simp
  | some b =>
      have hlt := (hs r b hb).1
      simp only [hlt, ↓reduceIte, List.mem_cons, Option.some.injEq, exists_eq_left',
        lineageFrom_congr hlt (Nat.lt_succ_self b.index), lineage]

/-- A record derives from those that are reached from base to base. -/
theorem derivesFrom_iff_bases (hs : s.Layered) {r a : RecordRef} :
    s.derivesFrom r a = true ↔ Relation.ReflTransGen (fun r b => s.base? r = some b) r a := by
  rw [derivesFrom_iff]
  constructor
  · intro ha
    induction hn : r.index using Nat.strongRecOn generalizing r with
    | ind n ih =>
        rcases hs.mem_lineage_iff.mp ha with rfl | ⟨b, hb, hab⟩
        · exact .refl
        · exact .head hb (ih b.index (hn ▸ (hs r b hb).1) hab rfl)
  · intro hbases
    induction hbases using Relation.ReflTransGen.head_induction_on with
    | refl => exact hs.mem_lineage_iff.mpr (.inl rfl)
    | head hb _ ih => exact hs.mem_lineage_iff.mpr (.inr ⟨_, hb, ih⟩)

theorem isPrefix_fields (hs : s.Layered) {d b : RecordRef} (h : s.derivesFrom d b = true) :
    s.fields b <+: s.fields d := by
  rw [hs.derivesFrom_iff_bases] at h
  induction h with
  | refl => exact List.prefix_rfl
  | tail _ hb ih => exact (hs _ _ hb).2.trans ih

end Layered

/-! ## Declarations -/

theorem fields_push (s : Schema) (d : RecordDecl) (r : RecordRef) :
    fields ⟨s.records.push d⟩ r = if r.index = s.records.size then d.fields else s.fields r := by
  rw [fields, decl?, Array.getElem?_push]
  by_cases hr : r.index = s.records.size
  · rw [if_pos hr, if_pos hr]
  · rw [if_neg hr, if_neg hr]
    rfl

theorem base?_push (s : Schema) (d : RecordDecl) (r : RecordRef) :
    base? ⟨s.records.push d⟩ r = if r.index = s.records.size then d.base else s.base? r := by
  rw [base?, decl?, Array.getElem?_push]
  by_cases hr : r.index = s.records.size
  · rw [if_pos hr, if_pos hr]
    rfl
  · rw [if_neg hr, if_neg hr]
    rfl

theorem index_lt_of_base? {r b : RecordRef} (h : s.base? r = some b) :
    r.index < s.records.size := by
  obtain ⟨d, hd, -⟩ := Option.bind_eq_some_iff.mp h
  exact (Array.getElem?_eq_some_iff.mp hd).1

/-- A record is added behind those that it may derive from. -/
theorem Layered.push (hs : s.Layered) {d : RecordDecl}
    (hd : ∀ b, d.base = some b → b.index < s.records.size ∧ s.fields b <+: d.fields) :
    Layered ⟨s.records.push d⟩ := by
  intro r b hb
  rw [base?_push] at hb
  rw [fields_push, fields_push]
  by_cases hr : r.index = s.records.size
  · rw [if_pos hr] at hb ⊢
    obtain ⟨hlt, hfirst⟩ := hd b hb
    rw [if_neg (Nat.ne_of_lt hlt)]
    exact ⟨hr ▸ hlt, hfirst⟩
  · rw [if_neg hr] at hb ⊢
    -- a record that was there before has its base among those before it, and not in the new one
    obtain ⟨hlt, hfirst⟩ := hs r b hb
    rw [if_neg (Nat.ne_of_lt (Nat.lt_trans hlt (index_lt_of_base? hb)))]
    exact ⟨hlt, hfirst⟩

/-- Truth operators are all that can change in a declaration. -/
theorem decl?_setTruth (s : Schema) (r : RecordRef) (ops : TruthOperators) (a : RecordRef) :
    (s.setTruth r ops).2.decl? a = s.decl? a ∨
      ∃ d, s.decl? a = some d ∧
        (s.setTruth r ops).2.decl? a = some { d with truth := some ops } := by
  cases hd : s.decl? r with
  | none => exact .inl (by rw [setTruth, hd])
  | some d =>
      by_cases hset : d.truth.isSome = true
      · exact .inl (by simp only [setTruth, hd, hset, ↓reduceIte])
      · simp only [setTruth, hd, hset, Bool.false_eq_true, ↓reduceIte]
        by_cases ha : r.index = a.index
        · have hda : s.decl? a = some d := by rw [← hd, decl?, decl?, ha]
          have hlt := (Array.getElem?_eq_some_iff.mp hda).1
          refine .inr ⟨d, hda, ?_⟩
          rw [decl?, ha, Array.getElem?_setIfInBounds_self_of_lt hlt]
        · exact .inl (Array.getElem?_setIfInBounds_ne ha)

theorem fields_setTruth (s : Schema) (r : RecordRef) (ops : TruthOperators) (a : RecordRef) :
    (s.setTruth r ops).2.fields a = s.fields a := by
  rcases s.decl?_setTruth r ops a with h | ⟨d, hd, h⟩
  · rw [fields, fields, h]
  · rw [fields, fields, h, hd]

theorem base?_setTruth (s : Schema) (r : RecordRef) (ops : TruthOperators) (a : RecordRef) :
    (s.setTruth r ops).2.base? a = s.base? a := by
  rcases s.decl?_setTruth r ops a with h | ⟨d, hd, h⟩
  · rw [base?, base?, h]
  · rw [base?, base?, h, hd]
    rfl

/-- The schemas that declarations make, one after another. A record derives from one that was
declared before; truth operators may be given to a record at any time. -/
inductive Declared : Schema → Prop
  | empty : Declared .empty
  | declare {s : Schema} (name : String) (fields : List Field) (hs : Declared s) :
      Declared (s.declare name fields).2
  | derive {s : Schema} (name : String) {base : RecordRef} (fields : List Field) (hs : Declared s)
      (hbase : base.index < s.records.size) : Declared (s.derive name base fields).2
  | setTruth {s : Schema} (r : RecordRef) (ops : TruthOperators) (hs : Declared s) :
      Declared (s.setTruth r ops).2

theorem Declared.layered (hs : s.Declared) : s.Layered := by
  induction hs with
  | empty =>
      intro r b hb
      cases hb
  | declare name fields _ ih =>
      refine ih.push fun b hb => ?_
      cases hb
  | derive name fields _ hbase ih =>
      refine ih.push fun b hb => ?_
      cases hb
      exact ⟨hbase, List.prefix_append _ _⟩
  | setTruth r ops _ ih =>
      intro a b hb
      rw [base?_setTruth] at hb
      rw [fields_setTruth, fields_setTruth]
      exact ih a b hb

/-! ## Positions of fields -/

/-- A field that is found by its name has a declaration. -/
theorem exists_field_of_fieldIndex? {r : RecordRef} {name : String} {i : Nat}
    (h : s.fieldIndex? r name = some i) : ∃ f, (s.fields r)[i]? = some f := by
  obtain ⟨hi, -⟩ := List.findIdx?_eq_some_iff_getElem.mp h
  exact ⟨_, List.getElem?_eq_getElem hi⟩

theorem member?_eq_field {t : Ty} {r : RecordRef} {name : String} {i : Nat} {f : Field}
    (ht : t.record? = some r) (hi : s.fieldIndex? r name = some i)
    (hf : (s.fields r)[i]? = some f) : s.member? t name = some (.field name i f.ty) := by
  simp only [member?, ht, hi, hf, Option.bind_eq_bind, Option.bind_some, Option.pure_def]

/-- A field of a base has the same position in the records that derive from it. -/
theorem Layered.fieldIndex?_derived (hs : s.Layered) {d b : RecordRef}
    (h : s.derivesFrom d b = true) {name : String} {i : Nat}
    (hi : s.fieldIndex? b name = some i) : s.fieldIndex? d name = some i :=
  (hs.isPrefix_fields h).findIdx?_eq_some hi

theorem Layered.getElem?_fields_derived (hs : s.Layered) {d b : RecordRef}
    (h : s.derivesFrom d b = true) {i : Nat} {f : Field} (hf : (s.fields b)[i]? = some f) :
    (s.fields d)[i]? = some f := by
  obtain ⟨own, hown⟩ := hs.isPrefix_fields h
  obtain ⟨hi, -⟩ := List.getElem?_eq_some_iff.mp hf
  calc (s.fields d)[i]?
      = (s.fields b ++ own)[i]? := by rw [hown]
    _ = (s.fields b)[i]? := List.getElem?_append_left hi
    _ = some f := hf

end Schema

/-! ## Slots of instances -/

namespace Heap

/-- `h'` is `h` with the value in that slot. -/
structure Stored (h : Heap) (id index : Nat) (v : Value) (h' : Heap) : Prop where
  slot : (h'.fields id)[index]? = some v
  others : ∀ id' j, (id', j) ≠ (id, index) → (h'.fields id')[j]? = (h.fields id')[j]?
  rest : h' = { h with instances := h'.instances }

/-- A slot that the instance has can be stored into. -/
theorem exists_setField? {h : Heap} {id index : Nat} (hi : index < (h.fields id).size)
    (v : Value) : ∃ h', h.setField? id index v = some h' ∧ h.Stored id index v h' := by
  have hslots : ∃ slots, h.instances[id]? = some slots ∧ index < slots.size := by
    cases hid : h.instances[id]? with
    | none => simp [fields, hid] at hi
    | some slots => exact ⟨slots, rfl, by simpa [fields, hid] using hi⟩
  obtain ⟨slots, hid, hlt⟩ := hslots
  refine ⟨_, if_pos hi, ?_, ?_, rfl⟩
  · simp [fields, Array.getElem?_modify, hid, hlt]
  · intro id' j hne
    by_cases heq : id = id'
    · have hj : index ≠ j := fun hj => hne (by rw [heq, hj])
      simp [fields, Array.getElem?_modify, ← heq, hid, Array.getElem?_setIfInBounds_ne hj]
    · simp [fields, Array.getElem?_modify, heq]

theorem map_size_instances_setField? {h h' : Heap} {id index : Nat} {v : Value}
    (hset : h.setField? id index v = some h') :
    h'.instances.toList.map (·.size) = h.instances.toList.map (·.size) := by
  rw [setField?] at hset
  split at hset
  case isTrue =>
    cases hset
    apply List.ext_getElem?
    intro k
    simp only [List.getElem?_map, Array.getElem?_toList, Array.getElem?_modify]
    split <;> simp [Function.comp_def]
  case isFalse => cases hset

/-- A heap whose instances were made one after another, those of `records` in this order. Slots may
be stored into at any time, and the rest of the heap may change. -/
inductive Populated (s : Schema) : List RecordRef → Heap → Prop
  | initial {h : Heap} (hnone : h.instances = #[]) : Populated s [] h
  | create {records : List RecordRef} {h : Heap} (r : RecordRef) (hp : Populated s records h) :
      Populated s (records ++ [r]) (h.newInstance r (s.defaults r)).2
  | store {records : List RecordRef} {h h' : Heap} {id index : Nat} {v : Value}
      (hp : Populated s records h) (hset : h.setField? id index v = some h') :
      Populated s records h'
  | other {records : List RecordRef} {h h' : Heap} (hp : Populated s records h)
      (hsame : h'.instances = h.instances) : Populated s records h'

namespace Populated

variable {s : Schema} {records : List RecordRef} {h : Heap}

/-- The instances have as many slots as their records have fields. -/
theorem map_size_instances (hp : h.Populated s records) :
    h.instances.toList.map (·.size) = records.map fun r => (s.fields r).length := by
  induction hp with
  | initial hnone => rw [hnone]; rfl
  | create r _ ih => simp [newInstance, ih, Schema.defaults]
  | store _ hset ih => rw [map_size_instances_setField? hset, ih]
  | other _ hsame ih => rw [hsame, ih]

theorem size_fields (hp : h.Populated s records) {id : Nat} {r : RecordRef}
    (hr : records[id]? = some r) : (h.fields id).size = (s.fields r).length := by
  have hsize := congrArg (·[id]?) hp.map_size_instances
  simp only [List.getElem?_map, hr, Option.map_some, Array.getElem?_toList,
    Option.map_eq_some_iff] at hsize
  obtain ⟨slots, hslots, hlength⟩ := hsize
  rw [fields, hslots, ← hlength]
  rfl

end Populated

end Heap

/-! ## Members -/

theorem Context.readMember_field (cx : Context) (name : String) (ty : Ty) (r : RecordRef)
    {id i : Nat} {v : Value} {w : World} (hv : (w.heap.fields id)[i]? = some v) :
    cx.readMember (.field name i ty) (.object r id) w = .ok v w := by
  have hfield : w.heap.field id i = v := by rw [Heap.field, hv, Option.getD_some]
  rw [← hfield]
  rfl

theorem Context.writeMember_field (cx : Context) (name : String) (ty : Ty) (r : RecordRef)
    {id i : Nat} {v : Value} {w : World} {heap : Heap}
    (hset : w.heap.setField? id i v = some heap) :
    cx.writeMember (.field name i ty) (.object r id) v w = .ok () { w with heap := heap } := by
  simp only [Context.writeMember, Value.asInstance, Eval.ofExcept, pure_bind, get_bind, hset]
  rfl

/-- **Derived records keep the layout of their bases.** A record derives from the records that its
bases lead to, and this is an order. Their fields are its first fields, so a name that one of them
has stands for the same field in the same position. Every instance has a slot for each field of its
record, whatever was stored before. The member that is found on a base reads and writes the slot of
its position, and no other one. -/
theorem derived_records_keep_layout {s : Schema} (hs : s.Declared) :
    (∀ r a, s.derivesFrom r a = true ↔
      Relation.ReflTransGen (fun r b => s.base? r = some b) r a) ∧
    (∀ r, s.derivesFrom r r = true) ∧
    (∀ r a, s.derivesFrom r a = true → s.derivesFrom a r = true → r = a) ∧
    (∀ r a b, s.derivesFrom r a = true → s.derivesFrom a b = true → s.derivesFrom r b = true) ∧
    (∀ (h : Heap) records id d, h.Populated s records → records[id]? = some d →
      (h.fields id).size = (s.fields d).length) ∧
    ∀ d b, s.derivesFrom d b = true →
      s.fields b <+: s.fields d ∧
      ∀ name i, s.fieldIndex? b name = some i →
        s.fieldIndex? d name = some i ∧
        ∃ f, (s.fields b)[i]? = some f ∧ (s.fields d)[i]? = some f ∧
          (∀ t : Ty, t.record? = some b ∨ t.record? = some d →
            s.member? t name = some (.field name i f.ty)) ∧
          ∀ (cx : Context) (w : World) records id, w.heap.Populated s records →
            records[id]? = some d →
            (∃ v, (w.heap.fields id)[i]? = some v ∧
              cx.readMember (.field name i f.ty) (.object d id) w = .ok v w) ∧
            ∀ v, ∃ heap,
              cx.writeMember (.field name i f.ty) (.object d id) v w
                = .ok () { w with heap := heap } ∧
              w.heap.Stored id i v heap ∧ heap.Populated s records := by
  have hl := hs.layered
  refine ⟨fun r a => hl.derivesFrom_iff_bases, Schema.derivesFrom_refl,
    fun r a => Schema.derivesFrom_antisymm, fun r a b => Schema.derivesFrom_trans,
    fun h records id d hp => hp.size_fields, ?_⟩
  intro d b h
  refine ⟨hl.isPrefix_fields h, ?_⟩
  intro name i hb
  have hd := hl.fieldIndex?_derived h hb
  obtain ⟨f, hbf⟩ := Schema.exists_field_of_fieldIndex? hb
  have hdf := hl.getElem?_fields_derived h hbf
  refine ⟨hd, f, hbf, hdf, ?_, ?_⟩
  · rintro t (ht | ht)
    · exact Schema.member?_eq_field ht hb hbf
    · exact Schema.member?_eq_field ht hd hdf
  · intro cx w records id hp hid
    have hi : i < (w.heap.fields id).size := by
      rw [hp.size_fields hid]
      exact (List.getElem?_eq_some_iff.mp hdf).1
    refine ⟨⟨_, Array.getElem?_eq_getElem hi, cx.readMember_field name f.ty d
      (Array.getElem?_eq_getElem hi)⟩, ?_⟩
    intro v
    obtain ⟨heap, hset, hstored⟩ := Heap.exists_setField? hi v
    exact ⟨heap, cx.writeMember_field name f.ty d hset, hstored, hp.store hset⟩

/-- Three records, the last of which declares the name of the first field again. -/
def discSchema : Schema :=
  let shapes := (Schema.empty.declare "Shape" [⟨"marked", .bool⟩]).2
  let circles := (shapes.derive "Circle" ⟨0, "Shape"⟩ [⟨"radius", .int .i32⟩]).2
  (circles.derive "Disc" ⟨1, "Circle"⟩ [⟨"marked", .string⟩]).2

theorem declared_discSchema : discSchema.Declared :=
  .derive _ _ (.derive _ _ (.declare _ _ .empty) (by decide)) (by decide)

/-- A disc keeps the mark of a shape in the first of its three slots. -/
theorem derived_records_keep_layout_disc :
    let shape : RecordRef := ⟨0, "Shape"⟩
    let disc : RecordRef := ⟨2, "Disc"⟩
    let w : World := { heap := (({} : Heap).newInstance disc (discSchema.defaults disc)).2 }
    let cx : Context := ⟨discSchema, 1000, fun _ _ _ => pure .null, fun _ _ => pure .null⟩
    discSchema.derivesFrom disc shape = true ∧ discSchema.derivesFrom shape disc = false ∧
    discSchema.fieldIndex? disc "marked" = some 0 ∧
    (w.heap.fields 0).size = 3 ∧
    ∃ m, discSchema.member? (.record shape) "marked" = some m ∧
      discSchema.member? (.record disc) "marked" = some m ∧
      cx.readMember m (.object disc 0) w = .ok (.bool false) w ∧
      ∃ heap, cx.writeMember m (.object disc 0) (.bool true) w = .ok () { w with heap := heap } ∧
        w.heap.Stored 0 0 (.bool true) heap := by
  intro shape disc w cx
  have hderives : discSchema.derivesFrom disc shape = true := by decide
  have hmarked : discSchema.fieldIndex? shape "marked" = some 0 := by decide
  have hp : w.heap.Populated discSchema [disc] := .create disc (.initial rfl)
  obtain ⟨-, -, -, -, hsize, hlayout⟩ := derived_records_keep_layout declared_discSchema
  obtain ⟨hdisc, f, -, -, hmember, haccess⟩ := (hlayout disc shape hderives).2 "marked" 0 hmarked
  obtain ⟨⟨v, hv, hread⟩, hwrite⟩ := haccess cx w [disc] 0 hp rfl
  obtain ⟨heap, hheap, hstored, -⟩ := hwrite (.bool true)
  cases hv
  exact ⟨hderives, by decide, hdisc, hsize w.heap [disc] 0 disc hp rfl, _, hmember _ (.inl rfl),
    hmember _ (.inr rfl), hread, heap, hheap, hstored⟩

end ExprTree
