import ExprTree.Proofs.Typing

set_option autoImplicit false

/-! # What conversions return

A conversion is selected by the first rule that fits the two types: optional types are taken apart
layer by layer, everything converts to `object` and back, records convert along their hierarchy, and
numbers to numbers. Whatever the rule, the result belongs to the target type, or the conversion
fails for a reason that lies in the value and not in its type (`conversion_wellTyped`). Between
records this rests on lineages: what derives from a record derives from the bases of that record.
-/

namespace ExprTree

/-! ## Lineages -/

namespace Schema

variable {s : Schema}

/-- A base is declared earlier, so the lineage is complete with any fuel above the index. -/
theorem lineageFrom_congr {f g : Nat} {r : RecordRef} (hf : r.index < f) (hg : r.index < g) :
    s.lineageFrom f r = s.lineageFrom g r := by
  induction f generalizing g r with
  | zero => omega
  | succ f ih =>
      cases g with
      | zero => omega
      | succ g =>
          rw [lineageFrom, lineageFrom]
          cases s.base? r with
          | none => rfl
          | some b =>
              by_cases hlt : b.index < r.index
              · have hrest := ih (g := g) (r := b) (by omega) (by omega)
                simp only [hlt, ↓reduceIte, hrest]
              · simp only [hlt, ↓reduceIte]

theorem lineage_suffix_lineageFrom {fuel : Nat} {r a : RecordRef} (hr : r.index < fuel)
    (ha : a ∈ s.lineageFrom fuel r) : s.lineage a <:+ s.lineageFrom fuel r := by
  induction fuel generalizing r with
  | zero => cases ha
  | succ fuel ih =>
      by_cases har : a = r
      · have heq : s.lineage a = s.lineageFrom (fuel + 1) r := by
          rw [har, lineage, lineageFrom_congr (Nat.lt_succ_self _) hr]
        exact heq ▸ List.suffix_refl _
      · rw [lineageFrom] at ha ⊢
        cases hb : s.base? r with
        | none =>
            rw [hb] at ha
            exact absurd (List.mem_singleton.mp ha) har
        | some b =>
            rw [hb] at ha
            by_cases hlt : b.index < r.index
            · simp only [hlt, ↓reduceIte] at ha ⊢
              have hmem := (List.mem_cons.mp ha).resolve_left har
              exact (ih (by omega) hmem).trans (List.suffix_cons _ _)
            · simp only [hlt, ↓reduceIte] at ha
              exact absurd (List.mem_singleton.mp ha) har

/-- The lineage of a base is the end of the lineage. -/
theorem lineage_suffix {r a : RecordRef} (h : a ∈ s.lineage r) : s.lineage a <:+ s.lineage r :=
  lineage_suffix_lineageFrom (Nat.lt_succ_self _) h

theorem derivesFrom_iff {r a : RecordRef} : s.derivesFrom r a = true ↔ a ∈ s.lineage r :=
  List.contains_iff_mem

theorem derivesFrom_refl (r : RecordRef) : s.derivesFrom r r = true := by
  rw [derivesFrom_iff, lineage, lineageFrom]
  cases s.base? r with
  | none => exact List.mem_singleton_self r
  | some b =>
      show r ∈ if b.index < r.index then r :: s.lineageFrom r.index b else [r]
      split <;> exact List.mem_cons_self

theorem derivesFrom_trans {r a b : RecordRef} (hr : s.derivesFrom r a = true)
    (ha : s.derivesFrom a b = true) : s.derivesFrom r b = true := by
  rw [derivesFrom_iff] at hr ha ⊢
  exact (lineage_suffix hr).subset ha

end Schema

/-! ## Conformance -/

section Conformance

variable {schema : Schema}

/-- A missing value conforms to the types that admit it. -/
theorem Value.conformsTo_null : (t : Ty) → Value.null.conformsTo schema t = t.admitsNull
  | .nullable _ => rfl
  | .unit | .bool | .char | .int _ | .f32 | .f64 | .string | .object | .array _ | .list _
  | .function .. | .expression .. | .record _ => rfl

theorem Value.conformsTo_object (v : Value) : v.conformsTo schema .object = true := by
  cases v <;> rfl

/-- What conforms to a record conforms to its bases. -/
theorem Value.conformsTo_base {r s : RecordRef} (h : schema.derivesFrom r s = true) {v : Value}
    (hv : v.conformsTo schema (.record r) = true) : v.conformsTo schema (.record s) = true := by
  cases v with
  | null => rfl
  | object q id => exact Schema.derivesFrom_trans hv h
  | _ => cases hv

/-- A value that is there conforms to what an option holds. -/
theorem Value.conformsTo_of_nullable {t : Ty} {v : Value}
    (h : v.conformsTo schema (.nullable t) = true) (hv : v.isNull = false) :
    v.conformsTo schema t = true := by
  rw [Value.conformsTo, hv, Bool.false_or] at h
  exact h

end Conformance

/-! ## Results -/

/-- A value of the type, or a failure for which the type of the operand is not to blame. -/
def Converted (schema : Schema) (t : Ty) : Except RuntimeError Value → Prop
  | .ok v => v.conformsTo schema t = true
  | .error e => e = .overflow ∨ e = .nullValue ∨ e = .nullReference ∨
      ∃ source target, e = .invalidCast source target

section Results

variable {schema : Schema} {checked : Bool} {source target : Ty} {c : Conversion} {v : Value}

theorem Converted.nullable {r : Except RuntimeError Value} (h : Converted schema target r) :
    Converted schema (.nullable target) r := by
  cases r with
  | ok w =>
      have hw : w.conformsTo schema target = true := h
      simp only [Converted, Value.conformsTo, hw, Bool.or_true]
  | error e => exact h

namespace Conversion

theorem castTo_converted (target : Ty) (v : Value) :
    Converted schema target (castTo schema target v) := by
  unfold castTo
  split
  · split
    · rw [Converted, Value.conformsTo_null]
      assumption
    · exact .inr (.inr (.inl rfl))
  · split
    · assumption
    · exact .inr (.inr (.inr ⟨_, _, rfl⟩))

theorem numeric_converted {n : Numeric} (hs : (Numeric.ofTy? source).isSome = true)
    (hn : Numeric.ofTy? target = some n) (hv : v.conformsTo schema source = true) :
    Converted schema target ((Conversion.numeric n checked).apply schema v) := by
  obtain ⟨x, hx⟩ := Number.ofValue_eq_ok hs hv
  have happly : (Conversion.numeric n checked).apply schema v = n.convert checked x := by
    rw [Conversion.apply, hx]
    rfl
  rw [happly]
  rcases Numeric.convert_cases schema hn checked x with ⟨w, hw, hconf⟩ | hw
  · rw [hw]
    exact hconf
  · rw [hw]
    exact .inl rfl

/-- The rules that do not look into an option. -/
theorem plain?_converted (h : plain? schema checked source target = some c)
    (hv : v.conformsTo schema source = true) : Converted schema target (c.apply schema v) := by
  unfold plain? at h
  split at h
  case isTrue heq =>
    cases h
    exact heq ▸ hv
  case isFalse =>
    split at h
    case h_1 =>
      cases h
      exact v.conformsTo_object
    case h_2 =>
      cases h
      exact castTo_converted target v
    case h_3 r s =>
      split at h
      · cases h
        exact Value.conformsTo_base (by assumption) hv
      · split at h
        · cases h
          exact castTo_converted _ v
        · cases h
    case h_4 =>
      split at h
      · obtain ⟨n, hn, rfl⟩ := Option.map_eq_some_iff.mp h
        exact numeric_converted (by assumption) hn hv
      · cases h

/-- The recursion is on the target, whose options are taken off one by one. -/
theorem ofPlain?_converted (hv : v.conformsTo schema source = true) :
    {target : Ty} → ofPlain? schema checked source target = some c →
    Converted schema target (c.apply schema v)
  | .nullable target, h => by
      rw [ofPlain?] at h
      split at h
      · exact plain?_converted h hv
      · exact (ofPlain?_converted hv h).nullable
  | .unit, h | .bool, h | .char, h | .int _, h | .f32, h | .f64, h | .string, h | .object, h
  | .array _, h | .list _, h | .function .., h | .expression .., h | .record _, h =>
      plain?_converted h hv

/-- From an option to a type that is none. -/
theorem select?_nullable_plain (ht : target.isNullable = false) :
    select? schema checked (.nullable source) target
      = if target.admitsNull then plain? schema checked (.nullable source) target
        else (select? schema checked source target).map .unwrap := by
  cases target with
  | nullable t => cases ht
  | _ => simp [select?]

/-- The recursion is on the source; what an inner conversion gets is there. -/
theorem select?_converted : {source target : Ty} → {c : Conversion} → {v : Value} →
    select? schema checked source target = some c → v.conformsTo schema source = true →
    Converted schema target (c.apply schema v)
  | .nullable source, target, c, v, h, hv => by
      by_cases heq : Ty.nullable source = target
      · subst heq
        rw [select?, if_pos rfl] at h
        cases h
        exact hv
      cases hnull : target.isNullable with
      | true =>
          obtain ⟨t, rfl⟩ : ∃ t, target = .nullable t := by
            cases target with
            | nullable t => exact ⟨t, rfl⟩
            | _ => cases hnull
          rw [select?, if_neg heq] at h
          obtain ⟨inner, hi, rfl⟩ := Option.map_eq_some_iff.mp h
          rw [Conversion.apply]
          cases hv' : v.isNull with
          | true => rfl
          | false => exact (select?_converted hi (Value.conformsTo_of_nullable hv hv')).nullable
      | false =>
          rw [select?_nullable_plain hnull] at h
          split at h
          · exact plain?_converted h hv
          · obtain ⟨inner, hi, rfl⟩ := Option.map_eq_some_iff.mp h
            rw [Conversion.apply]
            cases hv' : v.isNull with
            | true => exact .inr (.inl rfl)
            | false => exact select?_converted hi (Value.conformsTo_of_nullable hv hv')
  | .unit, _, _, _, h, hv | .bool, _, _, _, h, hv | .char, _, _, _, h, hv
  | .int _, _, _, _, h, hv | .f32, _, _, _, h, hv | .f64, _, _, _, h, hv
  | .string, _, _, _, h, hv | .object, _, _, _, h, hv | .array _, _, _, _, h, hv
  | .list _, _, _, _, h, hv | .function .., _, _, _, h, hv | .expression .., _, _, _, h, hv
  | .record _, _, _, _, h, hv => ofPlain?_converted hv h

end Conversion

/-- **Conversions are type sound.** If there is a conversion between two types, checked or not, it
takes a value of the source type to a value of the target type, or it fails with an overflow, on a
missing value, on a null reference or by an invalid cast; it never finds an operand of the wrong
type. -/
theorem conversion_wellTyped (h : Conversion.select? schema checked source target = some c)
    (hv : v.conformsTo schema source = true) :
    (∀ w, c.apply schema v = .ok w → w.conformsTo schema target = true) ∧
    (∀ e, c.apply schema v = .error e → e = .overflow ∨ e = .nullValue ∨ e = .nullReference ∨
      ∃ name ty, e = .invalidCast name ty) := by
  have hconverted := Conversion.select?_converted h hv
  constructor
  · intro w hw
    rw [hw] at hconverted
    exact hconverted
  · intro e he
    rw [he] at hconverted
    exact hconverted

end Results

/-- Three records, each derived from the one before. -/
def Schema.threeRecords : Schema :=
  ⟨#[⟨"A", [], none, none⟩, ⟨"B", [], some ⟨0, "A"⟩, none⟩, ⟨"C", [], some ⟨1, "B"⟩, none⟩]⟩

/-- An instance of `C` is converted to an optional `A` through two layers of options. A number that
is too large for its new type overflows. -/
theorem conversion_wellTyped_options :
    let schema := Schema.threeRecords
    let object : Value := .object ⟨2, "C"⟩ 0
    (∃ c, Conversion.select? schema false (.nullable (.nullable (.record ⟨2, "C"⟩)))
        (.nullable (.nullable (.record ⟨0, "A"⟩))) = some c ∧ c.apply schema object = .ok object ∧
      object.conformsTo schema (.nullable (.nullable (.record ⟨0, "A"⟩))) = true) ∧
    ∃ c e, Conversion.select? schema true (.nullable (.int .i16)) (.int .u8) = some c ∧
      c.apply schema (.ofInt .i16 300) = .error e ∧
      (e = .overflow ∨ e = .nullValue ∨ e = .nullReference ∨
        ∃ name ty, e = .invalidCast name ty) := by
  intro schema object
  constructor
  · have hselect : Conversion.select? schema false (.nullable (.nullable (.record ⟨2, "C"⟩)))
        (.nullable (.nullable (.record ⟨0, "A"⟩))) = some (.lifted (.lifted .identity)) := rfl
    have hobject : object.conformsTo schema (.nullable (.nullable (.record ⟨2, "C"⟩))) = true := rfl
    exact ⟨_, hselect, rfl, (conversion_wellTyped hselect hobject).1 object rfl⟩
  · have hselect : Conversion.select? schema true (.nullable (.int .i16)) (.int .u8)
        = some (.unwrap (.numeric (.int .u8) true)) := rfl
    have hvalue : (Value.ofInt .i16 300).conformsTo schema (.nullable (.int .i16)) = true := rfl
    exact ⟨_, _, hselect, rfl, (conversion_wellTyped hselect hvalue).2 .overflow rfl⟩

end ExprTree
