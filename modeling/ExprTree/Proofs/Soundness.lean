import ExprTree.Proofs.Sessions
import ExprTree.Proofs.Typing

set_option autoImplicit false

/-! # Type soundness

A core tree that compiles gives a value of its type, or fails in one of a few ways that types do not
exclude. The argument is about the interpreter: every location has a type, fixed when it is bound,
and every closure is a core lambda in an environment whose locations have the types of their
parameters. Assignments keep this, since they store values of the location's type; that two closures
share a location does not matter. What holds of the interpreter holds of compiled code, because the
two have the same outcome.
-/

namespace ExprTree

open Lexical (Bindings Env Store Interp Fault Closure location?)

/-! ## Typed stores -/

/-- The bindings of an environment are at locations of the right types. -/
def Lexical.EnvTyped (τ : Nat → Ty) (types : List Ty) (env : Env) : Prop :=
  ∀ b ∈ env, ∀ (i x : Nat), b.params[i]? = some x → types[b.base + i]? = some (τ x)

/-- A closure of a core lambda over an environment of the right types. -/
structure Lexical.Closure.Typed (schema : Schema) (τ : Nat → Ty) (types : List Ty) (c : Closure) :
    Prop where
  core : c.lambda.Core schema τ
  env : Lexical.EnvTyped τ types c.env

/-- Every location holds a value of its type, and every closure is typed. -/
structure Lexical.Store.Typed (schema : Schema) (τ : Nat → Ty) (types : List Ty) (σ : Store) :
    Prop where
  size : types.length = σ.locations.size
  locations : ∀ (l : Nat) t, types[l]? = some t →
    ∃ v, σ.locations[l]? = some v ∧ v.Has schema σ.closures t
  closures : ∀ (i : Nat) c, σ.closures[i]? = some c → c.Typed schema τ types

/-- Locations keep their types, and closures stay. -/
structure Lexical.Grown (types types' : List Ty) (σ σ' : Store) : Prop where
  types : ∀ (l : Nat) t, types[l]? = some t → types'[l]? = some t
  closures : ∀ (i : Nat) c, σ.closures[i]? = some c → σ'.closures[i]? = some c

open Lexical (EnvTyped Grown)

section Stores

variable {schema : Schema} {τ : Nat → Ty} {types types₁ types' : List Ty} {σ σ₁ σ' : Store}

theorem Lexical.Grown.refl (types : List Ty) (σ : Store) : Grown types types σ σ :=
  ⟨fun _ _ h => h, fun _ _ h => h⟩

theorem Lexical.Grown.trans (h : Grown types types₁ σ σ₁) (h' : Grown types₁ types' σ₁ σ') :
    Grown types types' σ σ' :=
  ⟨fun l t ht => h'.types l t (h.types l t ht), fun i c hc => h'.closures i c (h.closures i c hc)⟩

theorem Lexical.EnvTyped.mono {env : Env} (h : EnvTyped τ types env)
    (hg : ∀ (l : Nat) t, types[l]? = some t → types'[l]? = some t) : EnvTyped τ types' env :=
  fun b hb i x hx => hg _ _ (h b hb i x hx)

/-- The location of a parameter has the parameter's type. -/
theorem Lexical.EnvTyped.location {env : Env} (h : EnvTyped τ types env) {x l : Nat}
    (hl : location? env x = some l) : types[l]? = some (τ x) := by
  obtain ⟨b, hb, hbl⟩ := List.exists_of_findSome?_eq_some hl
  obtain ⟨i, hi, rfl⟩ := Option.map_eq_some_iff.mp hbl
  exact h b hb i x (getElem?_of_lastIndex? hi)

/-- A value may be stored at a location of its type. -/
theorem Lexical.Store.Typed.put (h : σ.Typed schema τ types) {l : Nat} {t : Ty}
    (ht : types[l]? = some t) {v : Value} (hv : v.Has schema σ.closures t) :
    (σ.put l v).Typed schema τ types := by
  have hlt : l < σ.locations.size := by
    have := (List.getElem?_eq_some_iff.mp ht).1
    rw [h.size] at this
    exact this
  refine ⟨by simpa [Store.put] using h.size, fun l' t' ht' => ?_, h.closures⟩
  rw [Store.get_put hlt]
  by_cases heq : l' = l
  · subst heq
    rw [ht] at ht'
    cases ht'
    exact ⟨v, by simp, hv⟩
  · obtain ⟨u, hu, hhas⟩ := h.locations l' t' ht'
    exact ⟨u, by simp [heq, hu], hhas⟩

/-- A typed closure may be added. -/
theorem Lexical.Store.Typed.newClosure (h : σ.Typed schema τ types) {c : Closure}
    (hc : c.Typed schema τ types) :
    (σ.newClosure c).2.Typed schema τ types ∧ Grown types types σ (σ.newClosure c).2 := by
  have hgrown : Grown types types σ (σ.newClosure c).2 := by
    refine ⟨fun _ _ ht => ht, fun i d hd => ?_⟩
    have hlt := (Array.getElem?_eq_some_iff.mp hd).1
    simp only [Store.newClosure, Array.getElem?_push]
    rw [if_neg (by omega), hd]
  refine ⟨⟨h.size, fun l t ht => ?_, fun i d hd => ?_⟩, hgrown⟩
  · obtain ⟨v, hv, hhas⟩ := h.locations l t ht
    exact ⟨v, hv, hhas.mono hgrown.closures⟩
  · simp only [Store.newClosure, Array.getElem?_push] at hd
    -- the closure that was added, or one that was there
    by_cases hi : i = σ.closures.size
    · rw [if_pos hi] at hd
      cases hd
      exact hc
    · rw [if_neg hi] at hd
      exact h.closures i d hd

end Stores

/-! ## Safe computations -/

/-- The values have the types they stand with. -/
def Given (schema : Schema) (closures : Array Closure) (held : List (Value × Ty)) : Prop :=
  ∀ a ∈ held, a.1.Has schema closures a.2

theorem Given.mono {schema : Schema} {closures closures' : Array Closure} {held : List (Value × Ty)}
    (h : Given schema closures held)
    (hc : ∀ (i : Nat) c, closures[i]? = some c → closures'[i]? = some c) :
    Given schema closures' held :=
  fun a ha => (h a ha).mono hc

/-- How a run from a typed store ends: with a result that satisfies `P` and whose values have the
types that `out` says, or with a failure to be expected. Both leave a typed store. -/
def Ends (schema : Schema) (τ : Nat → Ty) (types : List Ty) (σ : Store) {β : Type} (P : β → Prop)
    (out : β → List (Value × Ty)) : EStateM.Result Fault Store β → Prop
  | .ok b σ' => P b ∧ ∃ types', σ'.Typed schema τ types' ∧ Grown types types' σ σ' ∧
      Given schema σ'.closures (out b)
  | .error (.stop (.raised e)) σ' => e.isExpected = true ∧
      ∃ types', σ'.Typed schema τ types' ∧ Grown types types' σ σ'
  | .error (.stop .unfinished) _ => False
  | .error .stuck _ => True
  | .error .foreign _ => False

/-- A run may start later. -/
theorem Ends.grow {schema : Schema} {τ : Nat → Ty} {types types₁ : List Ty} {σ σ₁ : Store}
    {β : Type} {P : β → Prop} {out : β → List (Value × Ty)} {r : EStateM.Result Fault Store β}
    (h : Ends schema τ types₁ σ₁ P out r) (hg : Grown types types₁ σ σ₁) :
    Ends schema τ types σ P out r := by
  match r, h with
  | .ok _ _, ⟨hP, types', ht, hgrown, hout⟩ => exact ⟨hP, types', ht, hg.trans hgrown, hout⟩
  | .error (.stop (.raised _)) _, ⟨he, types', ht, hgrown⟩ =>
      exact ⟨he, types', ht, hg.trans hgrown⟩
  | .error .stuck _, _ => trivial
  | .error .foreign _, h => exact h

/-- The computation ends well, if the environment is typed and the values at hand have their
types. -/
def Safe (schema : Schema) (τ : Nat → Ty) (env : Env) (held : List (Value × Ty)) {β : Type}
    (x : Interp β) (P : β → Prop) (out : β → List (Value × Ty)) : Prop :=
  ∀ types σ, σ.Typed schema τ types → EnvTyped τ types env → Given schema σ.closures held →
    Ends schema τ types σ P out (x σ)

/-- The computation ends with a value of type `t`. -/
abbrev SafeAt (schema : Schema) (τ : Nat → Ty) (env : Env) (held : List (Value × Ty))
    (x : Interp Value) (t : Ty) : Prop :=
  Safe schema τ env held x (fun _ => True) fun v => [(v, t)]

namespace Safe

variable {schema : Schema} {τ : Nat → Ty} {env : Env} {held : List (Value × Ty)} {β γ : Type}
  {P : β → Prop} {out : β → List (Value × Ty)} {P' : γ → Prop} {out' : γ → List (Value × Ty)}

theorem bind {x : Interp β} {f : β → Interp γ} (hx : Safe schema τ env held x P out)
    (hf : ∀ b, P b → Safe schema τ env (out b ++ held) (f b) P' out') :
    Safe schema τ env held (x >>= f) P' out' := by
  intro types σ ht henv hg
  have hend := hx types σ ht henv hg
  show Ends schema τ types σ P' out' (EStateM.bind x f σ)
  unfold EStateM.bind
  cases hxσ : x σ with
  | ok b σ' =>
      rw [hxσ] at hend
      obtain ⟨hP, types', ht', hgrown, hout⟩ := hend
      -- the values at hand keep their types when the store grows
      have hg' : Given schema σ'.closures (out b ++ held) := by
        intro a ha
        rcases List.mem_append.mp ha with ha | ha
        · exact hout a ha
        · exact hg.mono hgrown.closures a ha
      exact (hf b hP types' σ' ht' (henv.mono hgrown.types) hg').grow hgrown
  | error e σ' =>
      rw [hxσ] at hend
      cases e with
      | stop why => cases why <;> exact hend
      | stuck => trivial
      | foreign => exact hend

theorem ite {c : Prop} [Decidable c] {x y : Interp β} (hx : Safe schema τ env held x P out)
    (hy : Safe schema τ env held y P out) :
    Safe schema τ env held (if c then x else y) P out := by
  split
  · exact hx
  · exact hy

/-- What is known of a result in any environment is known in each. -/
theorem inEnv {x : Interp β} (h : Safe schema τ [] held x P out) (env : Env) :
    Safe schema τ env held x P out :=
  fun types σ ht _ hg => h types σ ht nofun hg

theorem pure {b : β} (h : ∀ closures, Given schema closures held →
    P b ∧ Given schema closures (out b)) : Safe schema τ env held (Pure.pure b) P out := by
  intro types σ ht _ hg
  obtain ⟨hP, hout⟩ := h σ.closures hg
  exact ⟨hP, types, ht, .refl _ _, hout⟩

theorem raise {e : RuntimeError} (he : e.isExpected = true) :
    Safe schema τ env held (Interp.raise e : Interp β) P out :=
  fun types _ ht _ _ => ⟨he, types, ht, .refl _ _⟩

theorem stuck : Safe schema τ env held (Interp.stuck : Interp β) P out :=
  fun _ _ _ _ _ => trivial

/-- One of the values at hand. -/
theorem value {v : Value} {t : Ty}
    (h : ∀ closures, Given schema closures held → v.Has schema closures t) :
    SafeAt schema τ env held (Pure.pure v) t := by
  refine pure fun closures hg => ⟨trivial, fun a ha => ?_⟩
  rw [List.mem_singleton.mp ha]
  exact h closures hg

/-- A value of one type may also belong to another. -/
theorem retype {x : Interp Value} {t t' : Ty} (h : SafeAt schema τ env held x t)
    (ht : ∀ closures (v : Value), v.Has schema closures t → v.Has schema closures t') :
    SafeAt schema τ env held x t' := by
  intro types σ hσ henv hg
  have hx := h types σ hσ henv hg
  cases hxσ : x σ with
  | ok v σ' =>
      rw [hxσ] at hx
      obtain ⟨-, types', hσ', hgrown, hout⟩ := hx
      refine ⟨trivial, types', hσ', hgrown, fun a ha => ?_⟩
      rw [List.mem_singleton.mp ha]
      exact ht _ v (hout _ List.mem_cons_self)
  | error e σ' =>
      rw [hxσ] at hx
      cases e with
      | stop why => cases why <;> exact hx
      | stuck => trivial
      | foreign => exact hx

/-- The result of an operator or a conversion. -/
theorem delivered {r : Heap → Option (Except RuntimeError Value)} {t t' : Ty}
    (h : ∀ heap closures, Given schema closures held →
      ∃ x, r heap = some x ∧ Delivers schema t x)
    (hhas : ∀ closures (v : Value), v.conformsTo schema t = true → v.Has schema closures t') :
    SafeAt schema τ env held (do Interp.ofOption (r (← get).heap)) t' := by
  intro types σ ht _ hg
  obtain ⟨x, hx, hdelivers⟩ := h σ.heap σ.closures hg
  show Ends schema τ types σ _ _ (Interp.ofOption (r σ.heap) σ)
  rw [hx]
  cases x with
  | ok v =>
      refine ⟨trivial, types, ht, .refl _ _, fun a ha => ?_⟩
      rw [List.mem_singleton.mp ha]
      exact hhas σ.closures v hdelivers
  | error e => exact ⟨hdelivers, types, ht, .refl _ _⟩

/-- A truth value. -/
theorem asBool {v : Value}
    (hv : ∀ closures, Given schema closures held → v.Has schema closures .bool) :
    Safe schema τ env held (Interp.ofExcept v.asBool) (fun b => v = .bool b) fun _ => [] := by
  intro types σ ht _ hg
  obtain ⟨b, rfl⟩ := Value.eq_bool (hv σ.closures hg).conformsTo
  exact ⟨rfl, types, ht, .refl _ _, nofun⟩

/-- A truth value or none. -/
theorem asOptionalBool {v : Value} {t : Ty} (htv : t.nonNullable = .bool)
    (hv : ∀ closures, Given schema closures held → v.Has schema closures t) :
    Safe schema τ env held (Interp.ofExcept v.asOptionalBool)
      (fun b => v = b.elim .null .bool) fun _ => [] := by
  intro types σ ht _ hg
  have hhas := hv σ.closures hg
  cases hn : v.isNull with
  | true =>
      obtain rfl := Value.eq_null hn
      exact ⟨rfl, types, ht, .refl _ _, nofun⟩
  | false =>
      have hbool := hhas.nonNullable (.inl hn)
      rw [htv] at hbool
      obtain ⟨b, rfl⟩ := Value.eq_bool hbool.conformsTo
      exact ⟨rfl, types, ht, .refl _ _, nofun⟩

/-- The value of a parameter. -/
theorem load {p : Parameter} (hp : p.ty = τ p.id) :
    SafeAt schema τ env held (Interp.load env p) p.ty := by
  intro types σ ht henv _
  cases hv : σ.value? env p.id with
  | none =>
      rw [Interp.load_of_none hv]
      trivial
  | some v =>
      rw [Interp.load_eq hv]
      obtain ⟨l, hl, hlv⟩ := Option.bind_eq_some_iff.mp hv
      obtain ⟨u, hu, hhas⟩ := ht.locations l _ (henv.location hl)
      have huv : u = v := by
        rw [hu] at hlv
        exact Option.some.inj hlv
      subst huv
      refine ⟨trivial, types, ht, .refl _ _, fun a ha => ?_⟩
      rw [List.mem_singleton.mp ha, hp]
      exact hhas

/-- Storing a value of the parameter's type. -/
theorem store {p : Parameter} {v : Value} (hp : p.ty = τ p.id)
    (hv : ∀ closures, Given schema closures held → v.Has schema closures p.ty) :
    Safe schema τ env held (Interp.store env p v) (fun _ => True) fun _ => [] := by
  intro types σ ht henv hg
  unfold Interp.store
  cases hl : location? env p.id with
  | none => trivial
  | some l =>
      have hhas := hv σ.closures hg
      rw [hp] at hhas
      have ht' := ht.put (henv.location hl) hhas
      exact ⟨trivial, types, ht', ⟨fun _ _ h => h, fun _ _ h => h⟩, nofun⟩

/-- A closure of a core lambda. -/
theorem close {l : Lambda Value} (hl : l.Core schema τ) (limit : UInt32) :
    SafeAt schema τ env held (Interp.close ⟨l, env, limit⟩) l.signature.function := by
  intro types σ ht henv _
  have hc : Lexical.Closure.Typed schema τ types ⟨l, env, limit⟩ := ⟨hl, henv⟩
  obtain ⟨ht', hgrown⟩ := ht.newClosure hc
  refine ⟨trivial, types, ht', hgrown, fun a ha => ?_⟩
  rw [List.mem_singleton.mp ha]
  exact .inr ⟨_, ⟨l, env, limit⟩, rfl, rfl, by simp, rfl⟩

end Safe

/-! ## Operators on typed operands -/

section Operators

variable {schema : Schema} {τ : Nat → Ty} {env : Env} {held : List (Value × Ty)}
  {cx : Lexical.Context}

theorem Safe.liftedUnary {op : UnaryOp} {t : Ty} {v : Value} (hop : op.Takes t.nonNullable)
    (hs : t.nonNullable.isScalar = true)
    (hv : ∀ closures, Given schema closures held → v.Has schema closures t) :
    SafeAt schema τ env held (cx.liftedUnary (.primitive op) t.isNullable v) t := by
  unfold Lexical.Context.liftedUnary
  split
  case isTrue h =>
    obtain ⟨hnullable, -⟩ := Bool.and_eq_true_iff.mp h
    exact value fun _ _ => .null (by simp [Ty.admitsNull, hnullable])
  case isFalse h =>
    have hplain : v.isNull = false ∨ t.isNullable = false := by
      cases hn : v.isNull with
      | false => exact .inl rfl
      | true => exact .inr (by simpa [hn] using h)
    exact delivered (r := fun _ => some (op.apply v))
      (fun _ closures hg =>
        ⟨_, rfl, UnaryOp.apply_delivers hop ((hv closures hg).nonNullable hplain).conformsTo⟩)
      fun _ _ hc => (Value.Has.of_scalar hs hc).of_nonNullable

/-- The result of an operator on operands that are both there. -/
theorem Safe.primitive {op : BinaryOp} {a b t t' : Ty} {l r : Value} (hop : op.Takes a b t)
    (hl : ∀ closures, Given schema closures held → l.Has schema closures a)
    (hr : ∀ closures, Given schema closures held → r.Has schema closures b)
    (ht : ∀ closures (v : Value), v.Has schema closures t → v.Has schema closures t') :
    SafeAt schema τ env held (cx.binary (.primitive op) l r) t' :=
  delivered (r := fun heap => op.apply heap l r)
    (fun heap closures hg => BinaryOp.apply_delivers hop heap (hl closures hg).conformsTo
      (hr closures hg).conformsTo)
    fun closures v hc => ht closures v (hop.has hc)

/-- What a lifted operator gives when an operand is missing belongs to the type of the node. -/
theorem NullResult.resolve_has {kind : Kind} {ty : Ty}
    (h : kind.isRelational = false → ty.admitsNull = true)
    (hrel : kind.isRelational = true → ty = .bool ∨ ty = .nullable .bool) (l r : Value)
    (closures : Array Closure) :
    ((NullResult.ofKind kind ty).resolve l r).Has schema closures ty := by
  unfold NullResult.ofKind
  split
  case isTrue hnull =>
    refine .null ?_
    cases hk : kind.isRelational with
    | false => exact h hk
    | true => simpa [hk] using hnull
  case isFalse hplain =>
    obtain ⟨hk, ht⟩ : kind.isRelational = true ∧ ty.admitsNull = false := by simpa using hplain
    rcases hrel hk with rfl | rfl
    · split <;> rfl
    · cases ht

/-- The results on plain operands belong to the type of the node. -/
theorem Node.binaryType_has {kind : Kind} (hk : kind.isOperator = true) {left : Ty}
    {lifted toNull : Bool} (closures : Array Closure) (v : Value)
    (hv : v.Has schema closures (kind.resultType left.nonNullable)) :
    v.Has schema closures (Node.binaryType kind left lifted toNull) := by
  have hindex : kind ≠ .arrayIndex := by
    rintro rfl
    cases hk
  unfold Node.binaryType
  unfold Kind.resultType at hv
  cases hrel : kind.isRelational with
  | true =>
      rw [hrel] at hv
      cases toNull with
      | true => exact .inr hv
      | false => exact hv
  | false =>
      rw [hrel] at hv
      simp only [Bool.false_eq_true, ↓reduceIte, hindex]
      cases lifted with
      | true => exact hv.optional
      | false => exact hv.of_nonNullable

theorem binaryForm?_operator {kind : Kind} (hk : kind.isOperator = true) (ty left : Ty)
    (lifted : Bool) :
    binaryForm? schema kind ty left none lifted
      = if lifted && (kind = .and || kind = .or) && left.nonNullable.isBool then
          some (.kleene (kind = .and))
        else (BinaryOp.select? kind left.nonNullable).map fun op =>
          .strict (.primitive op) (if lifted then some (NullResult.ofKind kind ty) else none) := by
  cases kind <;> first | rfl | cases hk

/-- An optional truth value, whether or not its type says that it may be missing. -/
theorem Value.Has.optionalBool {t : Ty} (ht : t.nonNullable = .bool) {closures : Array Closure}
    {v : Value} (hv : v.Has schema closures t) : v.Has schema closures (.nullable .bool) := by
  cases t with
  | nullable t =>
      obtain rfl : t = .bool := ht
      exact hv
  | bool => exact .inr hv
  | _ => cases ht

theorem kleeneValue_has (conjunction : Bool) (l r : Option Bool) (closures : Array Closure) :
    (kleeneValue conjunction l r).Has schema closures (.nullable .bool) := by
  simp only [kleeneValue]
  split
  · exact .inr rfl
  · split
    · exact .inr rfl
    · exact .inl rfl

section Forms

variable {left right : Interp Value} {a b : Ty}
  (hl : ∀ held, SafeAt schema τ env held left a) (hr : ∀ held, SafeAt schema τ env held right b)

include hl hr

/-- Operands that are both evaluated. -/
theorem Safe.strict {action : BinaryAction} {onNull : Option NullResult} {t : Ty}
    (h : ∀ l r held, SafeAt schema τ env ((r, b) :: (l, a) :: held)
      (cx.liftedBinary action onNull l r) t) :
    SafeAt schema τ env held (cx.form left right (.strict action onNull)) t :=
  (hl held).bind fun l _ => (hr _).bind fun r _ => h l r held

theorem Safe.kleene (ha : a.nonNullable = .bool) (hb : b.nonNullable = .bool)
    (conjunction : Bool) :
    SafeAt schema τ env held (cx.form left right (.kleene conjunction)) (.nullable .bool) := by
  refine (hl held).bind fun l _ => ?_
  refine (asOptionalBool ha fun _ hg => hg (l, a) List.mem_cons_self).bind fun x _ => ?_
  refine (hr _).bind fun r _ => ?_
  refine (asOptionalBool hb fun _ hg => hg (r, b) List.mem_cons_self).bind fun y _ => ?_
  exact value fun closures _ => kleeneValue_has conjunction x y closures

/-- The right operand is evaluated only if the left one does not decide. -/
theorem Safe.shortCircuit (ha : a.nonNullable = .bool) (hb : b.nonNullable = .bool)
    (decisive : Bool) :
    SafeAt schema τ env held
      (cx.form left right (.shortCircuit decisive (a.isNullable || b.isNullable)))
      (if a.isNullable || b.isNullable then .nullable .bool else .bool) := by
  refine (hl held).bind fun l _ => ?_
  cases hlift : a.isNullable || b.isNullable with
  | true =>
      refine (asOptionalBool ha fun _ hg => hg (l, a) List.mem_cons_self).bind fun x _ => ?_
      cases x with
      | some x =>
          exact ite (value fun _ _ => .inr rfl) ((hr _).retype fun _ _ hv => hv.optionalBool hb)
      | none =>
          refine (hr _).bind fun r _ => ?_
          refine (asOptionalBool hb fun _ hg => hg (r, b) List.mem_cons_self).bind fun y _ => ?_
          cases y with
          | some y => exact ite (value fun _ _ => .inr rfl) (value fun _ _ => .inl rfl)
          | none => exact value fun _ _ => .inl rfl
  | false =>
      obtain ⟨hna, hnb⟩ := Bool.or_eq_false_iff.mp hlift
      obtain rfl : a = .bool := (Ty.nonNullable_eq_self hna).symm.trans ha
      obtain rfl : b = .bool := (Ty.nonNullable_eq_self hnb).symm.trans hb
      refine (asBool fun _ hg => hg (l, .bool) List.mem_cons_self).bind fun x _ => ?_
      exact ite (value fun _ _ => rfl) (hr _)

end Forms

/-- **An operator on two operands that fit is safe**, lifted or not. -/
theorem Safe.operator {kind : Kind} (hk : kind.isOperator = true) {l r : Tree} {toNull : Bool}
    (fits : r.ty.nonNullable = kind.rightType l.ty.nonNullable)
    (hl : ∀ held, SafeAt schema τ env held (l.interpret cx env) l.ty)
    (hr : ∀ held, SafeAt schema τ env held (r.interpret cx env) r.ty) :
    SafeAt schema τ env held
      (Payload.interpret cx env kind
        (Node.binaryType kind l.ty (Node.operandsOptional l r) toNull)
        (.binary l r none (Node.operandsOptional l r) toNull none))
      (Node.binaryType kind l.ty (Node.operandsOptional l r) toNull) := by
  have hcoalesce : kind ≠ .coalesce := by
    rintro rfl
    cases hk
  rw [Payload.interpret, if_neg hcoalesce, binaryForm?_operator hk]
  by_cases h : (Node.operandsOptional l r && (kind = .and || kind = .or)
      && l.ty.nonNullable.isBool) = true
  · -- three-valued logic
    rw [if_pos h]
    obtain ⟨⟨hlift, hkind⟩, hbool⟩ : (Node.operandsOptional l r = true ∧
        (kind = .and ∨ kind = .or)) ∧ l.ty.nonNullable.isBool = true := by simpa using h
    have ha : l.ty.nonNullable = .bool := by
      cases hty : l.ty.nonNullable <;> first | rfl | (rw [hty] at hbool; cases hbool)
    have hb : r.ty.nonNullable = .bool := by
      rcases hkind with rfl | rfl <;> exact fits.trans ha
    refine (kleene hl hr ha hb _).retype fun closures v hv => ?_
    have hopt : Ty.bool.optional = .nullable .bool := rfl
    rcases hkind with rfl | rfl <;>
      simpa [Node.binaryType, Kind.isRelational, hlift, ha, hopt] using hv
  · rw [if_neg h]
    -- the operator that is selected on the plain types is applied to plain operands
    cases hop : BinaryOp.select? kind l.ty.nonNullable with
    | none => exact stuck
    | some op =>
        have htakes := BinaryOp.select?_takes hop
        rw [← fits] at htakes
        refine strict hl hr fun x y held => ?_
        have hx : ∀ closures, Given schema closures ((y, r.ty) :: (x, l.ty) :: held) →
            x.Has schema closures l.ty := fun _ hg => hg (x, l.ty) (by simp)
        have hy : ∀ closures, Given schema closures ((y, r.ty) :: (x, l.ty) :: held) →
            y.Has schema closures r.ty := fun _ hg => hg (y, r.ty) (by simp)
        cases hlift : Node.operandsOptional l r with
        | true =>
            simp only [Lexical.Context.liftedBinary, ↓reduceIte]
            split
            case isTrue =>
              -- an operand is missing
              refine value fun closures _ => NullResult.resolve_has ?_ ?_ x y closures
              · intro hrel
                have hindex : kind ≠ .arrayIndex := by
                  rintro rfl
                  cases hk
                simp [Node.binaryType, hrel, hindex, Ty.admitsNull_optional]
              · intro hrel
                cases toNull <;> simp [Node.binaryType, hrel]
            case isFalse hboth =>
              obtain ⟨hxn, hyn⟩ : x.isNull = false ∧ y.isNull = false := by simpa using hboth
              exact primitive htakes (fun c hg => (hx c hg).nonNullable (.inl hxn))
                (fun c hg => (hy c hg).nonNullable (.inl hyn)) (Node.binaryType_has hk)
        | false =>
            -- nothing is optional, so nothing can be missing
            obtain ⟨hln, hrn⟩ := Bool.or_eq_false_iff.mp hlift
            simp only [Lexical.Context.liftedBinary, Bool.false_eq_true, ↓reduceIte]
            exact primitive htakes (fun c hg => (hx c hg).nonNullable (.inr hln))
              (fun c hg => (hy c hg).nonNullable (.inr hrn)) (Node.binaryType_has hk)

end Operators

/-! ## Trees -/

/-- Invoking a function of the right type on arguments of the right types is safe, one level
deeper. -/
structure Lexical.Context.Safe (schema : Schema) (τ : Nat → Ty) (cx : Lexical.Context) : Prop where
  sameSchema : cx.schema = schema
  invoke : ∀ f args params ret, args.length = params.length →
    SafeAt schema τ [] ((.function f, .function params ret) :: args.zip params)
      (cx.invoke (cx.depth + 1) f args) ret

section Trees

variable {schema : Schema} {τ : Nat → Ty} {env : Env} {cx : Lexical.Context}

/-- The values of several trees. -/
theorem Safe.interpretAll {items : List Tree}
    (h : ∀ x ∈ items, ∀ held, SafeAt schema τ env held (x.interpret cx env) x.ty)
    (held : List (Value × Ty)) :
    Safe schema τ env held (Node.interpretAll cx env items) (fun vs => vs.length = items.length)
      fun vs => vs.zip (items.map (·.ty)) := by
  induction items generalizing held with
  | nil => exact pure fun _ _ => ⟨rfl, nofun⟩
  | cons x items ih =>
      refine (h x List.mem_cons_self held).bind fun v _ => ?_
      refine (ih (fun y hy => h y (List.mem_cons_of_mem _ hy)) _).bind fun vs hvs => ?_
      refine pure fun closures hg => ⟨by simp [hvs], fun a ha => ?_⟩
      rcases List.mem_cons.mp ha with rfl | ha
      · exact hg _ (by simp)
      · exact hg a (List.mem_append_left _ ha)

/-- The value of the last of several trees. -/
theorem Safe.interpretBlock {items : List Tree}
    (h : ∀ x ∈ items, ∀ held, SafeAt schema τ env held (x.interpret cx env) x.ty) {last : Value}
    {t : Ty} {held : List (Value × Ty)}
    (hlast : ∀ closures, Given schema closures held → last.Has schema closures t) :
    SafeAt schema τ env held (Node.interpretBlock cx env last items)
      ((items.getLast?.map (·.ty)).getD t) := by
  induction items generalizing last t held with
  | nil => exact value hlast
  | cons x items ih =>
      refine (h x List.mem_cons_self held).bind fun v _ => ?_
      have hv : ∀ closures, Given schema closures ([(v, x.ty)] ++ held) →
          v.Has schema closures x.ty := fun _ hg => hg (v, x.ty) (by simp)
      have hrest := ih (fun y hy => h y (List.mem_cons_of_mem _ hy)) hv
      have hty : ((x :: items).getLast?.map (·.ty)).getD t
          = (items.getLast?.map (·.ty)).getD x.ty := by
        cases hl : items.getLast? <;> simp [List.getLast?_cons, hl]
      rw [hty]
      exact hrest

/-- An invocation of a value that should be a function. -/
theorem Safe.apply (hcx : cx.Safe schema τ) {callee : Value} {args : List Value} {params : List Ty}
    {ret : Ty} (hlen : args.length = params.length) {held : List (Value × Ty)}
    (hcallee : ∀ closures, Given schema closures held →
      callee.Has schema closures (.function params ret))
    (hargs : ∀ closures, Given schema closures held → Given schema closures (args.zip params)) :
    SafeAt schema τ env held (cx.apply callee args) ret := by
  intro types σ ht henv hg
  rcases hcallee σ.closures hg with hnull | ⟨f, c, rfl, hf, hc, hs⟩
  · rw [Value.eq_null hnull]
    exact raise rfl types σ ht henv hg
  · refine ((hcx.invoke f args params ret hlen).inEnv env) types σ ht henv fun a ha => ?_
    rcases List.mem_cons.mp ha with rfl | ha
    · exact .inr ⟨f, c, rfl, hf, hc, hs⟩
    · exact hargs σ.closures hg a ha

/-- An operator on one operand that fits. -/
theorem Safe.unaryOperator {kind : Kind}
    (hk : kind = .negate ∨ kind = .negateChecked ∨ kind = .unaryPlus ∨ kind = .not) {x : Tree}
    (hx : ∀ held, SafeAt schema τ env held (x.interpret cx env) x.ty)
    {held : List (Value × Ty)} :
    SafeAt schema τ env held
      (Payload.interpret cx env kind x.ty (.unary x none x.ty.isNullable)) x.ty := by
  have hquote : kind ≠ .quote := by rcases hk with rfl | rfl | rfl | rfl <;> nofun
  have hlength : kind ≠ .arrayLength := by rcases hk with rfl | rfl | rfl | rfl <;> nofun
  have haction : unaryAction? cx.schema kind x.ty x.ty none x.ty.isNullable
      = (UnaryOp.select? kind x.ty.nonNullable).map fun op => (.primitive op, x.ty.isNullable) := by
    rcases hk with rfl | rfl | rfl | rfl <;> rfl
  rw [Payload.interpret, if_neg hquote, haction]
  cases hop : UnaryOp.select? kind x.ty.nonNullable with
  | none => exact stuck
  | some op =>
      obtain ⟨htakes, hscalar⟩ := UnaryOp.select?_takes hlength hop
      exact (hx held).bind fun v _ => liftedUnary htakes hscalar fun _ hg =>
        hg (v, x.ty) List.mem_cons_self

/-- A logical operator that may leave its right operand out. -/
theorem Safe.logical {kind : Kind} (hk : kind = .andAlso ∨ kind = .orElse) {id : Nat} {l r : Tree}
    (ha : l.ty.nonNullable = .bool) (hb : r.ty.nonNullable = .bool)
    (hl : ∀ held, SafeAt schema τ env held (l.interpret cx env) l.ty)
    (hr : ∀ held, SafeAt schema τ env held (r.interpret cx env) r.ty)
    {held : List (Value × Ty)} :
    SafeAt schema τ env held ((Node.binary id kind l r).interpret cx env)
      (Node.binary id kind l r).ty := by
  have hform : (Node.binary id kind l r).interpret cx env
      = cx.form (l.interpret cx env) (r.interpret cx env)
          (.shortCircuit (kind = .orElse) (l.ty.isNullable || r.ty.isNullable)) := by
    rcases hk with rfl | rfl <;> rfl
  have hty : (Node.binary id kind l r).ty
      = if l.ty.isNullable || r.ty.isNullable then .nullable .bool else .bool := by
    have htype : (Node.binary id kind l r).ty
        = if l.ty.isNullable || r.ty.isNullable then l.ty.nonNullable.optional else l.ty := by
      rcases hk with rfl | rfl <;> rfl
    rw [htype, ha]
    split
    case isTrue => rfl
    case isFalse h =>
      have hn : l.ty.isNullable = false := by
        cases hn : l.ty.isNullable with
        | false => rfl
        | true => simp [hn] at h
      exact (Ty.nonNullable_eq_self hn).symm.trans ha
  rw [hform, hty]
  exact shortCircuit hl hr ha hb _

/-- A conversion between scalars or optional scalars. -/
theorem Safe.conversion (hcx : cx.Safe schema τ) {kind : Kind}
    (hk : kind = .convert ∨ kind = .convertChecked) {id : Nat} {x : Tree} {ty : Ty}
    (hs : x.ty.isOptionalScalar = true) (ht : ty.isOptionalScalar = true)
    (hx : ∀ held, SafeAt schema τ env held (x.interpret cx env) x.ty)
    {held : List (Value × Ty)} :
    SafeAt schema τ env held ((Node.conversion id kind x ty none).interpret cx env) ty := by
  have heq : (Node.conversion id kind x ty none).interpret cx env
      = (Conversion.select? cx.schema (kind = .convertChecked) x.ty ty).elim Interp.stuck
          (fun c => do Interp.ofExcept (c.apply cx.schema (← x.interpret cx env))) := by
    rcases hk with rfl | rfl
    all_goals
      simp only [Node.conversion, Node.interpret, Payload.interpret, unaryAction?]
      cases Conversion.select? cx.schema _ x.ty ty <;> rfl
  rw [heq, hcx.sameSchema]
  cases hc : Conversion.select? schema (kind = .convertChecked) x.ty ty with
  | none => exact stuck
  | some c =>
      refine (hx held).bind fun v _ => ?_
      have hv : ∀ closures, Given schema closures ([(v, x.ty)] ++ held) →
          v.conformsTo schema x.ty = true := fun _ hg => (hg (v, x.ty) (by simp)).conformsTo
      exact delivered (r := fun _ => some (c.apply schema v))
        (fun _ closures hg => ⟨_, rfl, Conversion.select?_delivers hs ht hc (hv closures hg)⟩)
        fun _ _ hconf => .of_optionalScalar ht hconf

/-- The right operand of a coalescing node has the type of the node. -/
theorem Value.Has.coalesceRight {id : Nat} {l r : Tree} {closures : Array Closure} {v : Value}
    (h : v.Has schema closures r.ty) (fits : r.ty = l.ty ∨ r.ty = l.ty.nonNullable) :
    v.Has schema closures (Node.coalesce id l r).ty := by
  show v.Has schema closures
    (if l.ty.isNullable && !r.ty.isNullable then l.ty.nonNullable else l.ty)
  split
  case isTrue hn =>
    rcases fits with fits | fits
    · rw [fits] at hn
      -- the right operand is not optional but the left one is, so they cannot be of one type
      simp at hn
    · exact fits ▸ h
  case isFalse =>
    rcases fits with fits | fits
    · exact fits ▸ h
    · exact (fits ▸ h : v.Has schema closures l.ty.nonNullable).of_nonNullable

/-- So has the left one, if it is there. -/
theorem Value.Has.coalesceLeft {id : Nat} {l : Tree} {closures : Array Closure} {v : Value}
    (h : v.Has schema closures l.ty) (hv : v.isNull = false) (r : Tree) :
    v.Has schema closures (Node.coalesce id l r).ty := by
  show v.Has schema closures
    (if l.ty.isNullable && !r.ty.isNullable then l.ty.nonNullable else l.ty)
  split
  · exact h.nonNullable (.inl hv)
  · exact h

/-- **Core trees are safe.** -/
theorem Node.Core.safe (hcx : cx.Safe schema τ) {n : Tree} (h : n.Core schema τ) :
    ∀ held, SafeAt schema τ env held (n.interpret cx env) n.ty := by
  induction h with
  | @constant id v ty core conforms missing =>
      intro held
      refine .value fun closures _ => ?_
      cases hf : ty.isFunction with
      | true =>
          rw [Value.eq_null (missing hf)]
          cases ty <;> first | exact .inl rfl | cases hf
      | false => exact .of_conformsTo hf core conforms
  | parameter _ ty => exact fun held => .load ty
  | @assign id p x _ ty _ same ih =>
      intro held
      refine (ih held).bind fun v _ => ?_
      rw [same]
      refine (Safe.store ty fun _ hg => hg (v, p.ty) List.mem_cons_self).bind fun _ _ => ?_
      exact .value fun _ hg => hg (v, p.ty) (by simp)
  | block _ ih =>
      intro held
      exact .interpretBlock ih fun _ _ => rfl
  | @condition id t a b _ bool _ _ same iht iha ihb =>
      intro held
      refine (iht held).bind fun v _ => ?_
      rw [bool]
      refine (Safe.asBool fun _ hg => hg (v, .bool) List.mem_cons_self).bind fun x _ => ?_
      cases x with
      | true => exact iha _
      | false =>
          have hb := ihb ([] ++ ([(v, Ty.bool)] ++ held))
          rw [← same] at hb
          exact hb
  | @lambda id l params body _ =>
      intro held
      exact .close ⟨params, body⟩ _
  | @invoke id x args ret _ _ fits ihx ihargs =>
      intro held
      have hty : (Node.invoke id x args).ty = ret := by
        rw [Node.invoke, fits]
        rfl
      rw [hty]
      -- the callee may be missing; otherwise its closure has the signature of its type
      refine (ihx held).bind fun callee _ => ?_
      refine (Safe.interpretAll ihargs _).bind fun vs hvs => ?_
      have hcallee : ∀ closures, Given schema closures
          (vs.zip (args.map (·.ty)) ++ ([(callee, x.ty)] ++ held)) →
          callee.Has schema closures (.function (args.map (·.ty)) ret) := by
        intro closures hg
        rw [← fits]
        exact hg (callee, x.ty) (by simp)
      exact .apply hcx (by simpa using hvs) hcallee fun _ hg a ha =>
        hg a (List.mem_append_left _ ha)
  | @unary id kind x operator _ ih =>
      intro held
      have heq : Node.unary id kind x = .mk id kind x.ty (.unary x none x.ty.isNullable) := by
        rcases operator with rfl | rfl | rfl | rfl <;> rfl
      rw [heq]
      exact .unaryOperator operator ih
  | logical operator _ _ leftBool rightBool ihl ihr =>
      exact fun held => .logical operator leftBool rightBool ihl ihr
  | binary operator _ _ fits ihl ihr => exact fun held => .operator operator fits ihl ihr
  | binaryLiftedToNull operator _ _ fits ihl ihr =>
      exact fun held => .operator operator fits ihl ihr
  | @coalesce id l r _ _ fits ihl ihr =>
      intro held
      refine (ihl held).bind fun v _ => ?_
      have hv : ∀ closures, Given schema closures ([(v, l.ty)] ++ held) →
          v.Has schema closures l.ty := fun _ hg => hg (v, l.ty) (by simp)
      cases hn : v.isNull with
      | true => exact (ihr _).retype fun _ _ hr => hr.coalesceRight fits
      | false => exact .value fun closures hg => (hv closures hg).coalesceLeft hn _
  | convert _ source target ih =>
      exact fun held => .conversion hcx (.inl rfl) source target ih
  | convertChecked _ source target ih =>
      exact fun held => .conversion hcx (.inr rfl) source target ih
  | @typeIs id x ty _ ih =>
      intro held
      refine (ih held).bind fun v _ => ?_
      exact .value fun _ _ => rfl
  | @typeAs id x ty _ target ih =>
      intro held
      -- a value that does not conform becomes `null`, which the target type admits
      have hcore : ty.isFunction = false ∧ ty.isCore = true ∧ ty.admitsNull = true := by
        rcases target with rfl | ⟨t, rfl, ht⟩
        · exact ⟨rfl, rfl, rfl⟩
        · exact ⟨rfl, ht, rfl⟩
      have heq : (Node.typeAs id x ty).interpret cx env = (do
          let v ← x.interpret cx env
          return if v.conformsTo cx.schema ty then v else .null) := by
        simp only [Node.typeAs, Node.conversion, Node.interpret, Payload.interpret, unaryAction?,
          hcore.2.2]
        rfl
      rw [heq, hcx.sameSchema]
      refine (ih held).bind fun v _ => .value fun closures _ => ?_
      split
      case isTrue hv => exact .of_conformsTo hcore.1 hcore.2.1 hv
      case isFalse => exact .null hcore.2.2

end Trees

/-! ## Invocations -/

section Invocations

variable {schema : Schema} {τ : Nat → Ty} {types : List Ty} {σ : Store}

theorem firstMismatch_eq_none {args : List Value} {params : List Ty}
    (h : ∀ a ∈ args.zip params, a.1.conformsTo schema a.2 = true) (i : Nat) :
    firstMismatch schema i args params = none := by
  induction args generalizing params i with
  | nil => cases params <;> rfl
  | cons v args ih =>
      cases params with
      | nil => rfl
      | cons t params =>
          have hv : v.conformsTo schema t = true := h (v, t) (by simp)
          rw [firstMismatch, if_pos hv]
          exact ih (fun a ha => h a (by simp [ha])) (i + 1)

/-- Arguments of the right number and types pass the check. -/
theorem checkArguments_eq_ok {s : Signature} {args : List Value}
    (hlen : args.length = s.params.length)
    (h : ∀ a ∈ args.zip s.params, a.1.conformsTo schema a.2 = true) :
    checkArguments schema s args = .ok () := by
  rw [checkArguments, if_pos hlen, firstMismatch_eq_none h]

section Binding

variable {l : Lambda Value} {args : List Value}

/-- New locations come after those there are. -/
theorem Lexical.Grown.bind (types : List Ty) (σ : Store) (l : Lambda Value) (args : List Value) :
    Grown types (types ++ l.params.map (·.ty)) σ (σ.bind l args).2 := by
  refine ⟨fun l t ht => ?_, fun _ _ hc => hc⟩
  rw [List.getElem?_append_left (List.getElem?_eq_some_iff.mp ht).1, ht]

/-- Binding arguments of the right types leaves a typed store. -/
theorem Lexical.Store.Typed.bind (h : σ.Typed schema τ types)
    (hlen : args.length = l.params.length)
    (hargs : Given schema σ.closures (args.zip (l.params.map (·.ty)))) :
    (σ.bind l args).2.Typed schema τ (types ++ l.params.map (·.ty)) := by
  refine ⟨by simp [Store.bind, h.size, hlen], fun i t ht => ?_, fun i c hc => ?_⟩
  · show ∃ v, (σ.locations ++ args.toArray)[i]? = some v ∧ v.Has schema σ.closures t
    by_cases hi : i < types.length
    · rw [List.getElem?_append_left hi] at ht
      obtain ⟨v, hv, hhas⟩ := h.locations i t ht
      refine ⟨v, ?_, hhas⟩
      rw [Array.getElem?_append_left (h.size ▸ hi), hv]
    · -- a new location holds an argument
      have hle : types.length ≤ i := by omega
      rw [List.getElem?_append_right hle] at ht
      have hlt : i - types.length < args.length := by
        have := (List.getElem?_eq_some_iff.mp ht).1
        simp only [List.length_map] at this
        omega
      have hget : args[i - types.length]? = some args[i - types.length] :=
        List.getElem?_eq_getElem hlt
      refine ⟨args[i - types.length], ?_, ?_⟩
      · rw [Array.getElem?_append_right (h.size ▸ hle), ← h.size]
        simp
      · refine hargs (args[i - types.length], t) ?_
        refine List.mem_of_getElem? (i := i - types.length) ?_
        rw [List.getElem?_zip_eq_some]
        exact ⟨hget, ht⟩
  · have hcl := h.closures i c hc
    exact ⟨hcl.core, hcl.env.mono (Grown.bind types σ l args).types⟩

/-- The new bindings have the types of the parameters. -/
theorem Lexical.EnvTyped.bind (h : σ.Typed schema τ types)
    (hparams : ∀ p ∈ l.params, p.ty = τ p.id) {env : Env} (henv : EnvTyped τ types env)
    (args : List Value) :
    EnvTyped τ (types ++ l.params.map (·.ty)) ((σ.bind l args).1 :: env) := by
  intro b hb i x hx
  rcases List.mem_cons.mp hb with rfl | hb
  · show (types ++ l.params.map (·.ty))[σ.locations.size + i]? = some (τ x)
    have hx' : (l.params.map (·.id))[i]? = some x := hx
    obtain ⟨p, hp, rfl⟩ : ∃ p, l.params[i]? = some p ∧ p.id = x := by
      simpa [List.getElem?_map] using hx'
    rw [← h.size, List.getElem?_append_right (by omega)]
    simp [hp, hparams p (List.mem_of_getElem? hp)]
  · exact henv.mono (Grown.bind types σ l args).types b hb i x hx

end Binding

theorem isExpected_of_checkCallDepth {depth limit : UInt32} {e : RuntimeError}
    (h : checkCallDepth depth limit = .error e) : e.isExpected = true := by
  unfold checkCallDepth at h
  split at h <;> cases h
  rfl

/-- **Invoking a typed closure on arguments of the right types is safe.** The induction is on the
nesting of invocations that is left. It does not run out: together with the depth it makes up the
ceiling, which lies above every limit. -/
theorem Lexical.invokeAt_ends (host : HostRef → List Value → Interp Value) (arrayLimit : Nat)
    (nesting : Nat) (depth : UInt32) (hn : callCeiling ≤ nesting + depth.toNat) {types : List Ty}
    {σ : Store} {c : Closure} {args : List Value} (h : σ.Typed schema τ types)
    (hc : c.Typed schema τ types) (hlen : args.length = c.lambda.params.length)
    (hargs : Given schema σ.closures (args.zip (c.lambda.params.map (·.ty)))) :
    Ends schema τ types σ (fun _ => True) (fun v => [(v, c.lambda.body.ty)])
      (Lexical.invokeAt schema arrayLimit host nesting depth c args σ) := by
  induction nesting generalizing depth types σ c args with
  | zero =>
      have hlt : depth.toNat < callCeiling := depth.toNat_lt
      omega
  | succ nesting ih =>
      unfold Lexical.invokeAt
      cases hdepth : checkCallDepth depth c.limit with
      | error e =>
          have he : e.isExpected = true := isExpected_of_checkCallDepth hdepth
          exact ⟨he, types, h, .refl _ _⟩
      | ok _ =>
          have hcheck : checkArguments schema c.lambda.signature args = .ok () := by
            refine checkArguments_eq_ok (by simpa [Lambda.signature] using hlen) fun a ha => ?_
            exact (hargs a ha).conformsTo
          have hnext : callCeiling ≤ nesting + (depth + 1).toNat := by
            rw [toNat_add_one_of_lt (lt_of_checkCallDepth hdepth)]
            omega
          rw [hcheck]
          have hcx : Lexical.Context.Safe schema τ
              { schema, arrayLimit, depth, host
                limit := c.limit
                invoke := fun depth f args => do
                  Lexical.invokeAt schema arrayLimit host nesting depth
                    (← Interp.closureOf f) args } := by
            refine ⟨rfl, fun f args params ret hlen => ?_⟩
            intro types' σ' h' _ hg
            rcases hg _ List.mem_cons_self with hnull | ⟨g, d, hf, -, hd, hs⟩
            · cases hnull
            · cases hf
              obtain ⟨rfl, rfl⟩ : d.lambda.params.map (·.ty) = params ∧ d.lambda.body.ty = ret := by
                simpa [Lambda.signature] using hs
              show Ends schema τ types' σ' _ _ (EStateM.bind _ _ σ')
              rw [EStateM.bind, Interp.closureOf_eq hd]
              exact ih _ hnext h' (h'.closures f.id d hd) (by simpa using hlen) fun a ha =>
                hg a (List.mem_cons_of_mem _ ha)
          have hbody := hc.core.body.safe hcx [] _ _ (h.bind hlen hargs)
            (.bind h (fun p hp => (hc.core.params p hp).2) hc.env args)
            fun _ h => absurd h List.not_mem_nil
          exact hbody.grow (.bind types σ c.lambda args)

end Invocations

/-! ## Compiled code -/

/-- The result belongs to the type, down to the signature of a function, or the failure is one that
types do not exclude; there is a result. -/
def WellTyped (schema : Schema) (ty : Ty) : Except (Stop RuntimeError) Value → Prop
  | .ok v => v.conformsTo schema ty = true ∧
      ∀ f params ret, v = .function f → ty = .function params ret → f.signature = ⟨params, ret⟩
  | .error (.raised e) => e.isExpected = true
  | .error .unfinished => False

theorem Value.Has.wellTyped {schema : Schema} {closures : Array Closure} {v : Value} {ty : Ty}
    (h : v.Has schema closures ty) : WellTyped schema ty (.ok v) := by
  refine ⟨h.conformsTo, ?_⟩
  rintro f params ret rfl rfl
  rcases h with hnull | ⟨g, c, hg, hs, -⟩
  · cases hnull
  · cases hg
    exact hs

/-- Scalars, strings and missing values hold no trees. -/
theorem Value.isPlain_of_conformsTo {schema : Schema} {v : Value} {t : Ty} (ht : t.isCore = true)
    (hv : v.conformsTo schema t = true) : v.isPlain = true := by
  cases v with
  | array | expression =>
      -- neither a core type nor its plain form is a type of arrays or of trees
      cases t with
      | nullable t =>
          cases t <;> first
            | exact absurd hv Bool.false_ne_true
            | exact absurd ht Bool.false_ne_true
      | _ =>
          first
            | exact absurd hv Bool.false_ne_true
            | exact absurd ht Bool.false_ne_true
  | _ => rfl

section Compiled

variable {e : Environment} {τ : Nat → Ty} {root : Lambda Value} {p : Program} {base : Nat}

/-- A closure without an environment is typed in every store. -/
theorem Lambda.Core.typed {schema : Schema} (h : root.Core schema τ) (types : List Ty)
    (limit : UInt32) : Lexical.Closure.Typed schema τ types ⟨root, [], limit⟩ :=
  ⟨h, nofun⟩

/-- What is known before and after each invocation of the root. -/
structure Sound (e : Environment) (τ : Nat → Ty) (base : Nat) (w : World) (σ : Store) : Prop where
  related : ∃ place, Related (.closed base) e.schema place w σ
  typed : ∃ types, σ.Typed e.schema τ types

/-- One invocation of the root. -/
theorem Sound.enter {options : Options} (hp : Program.ofLambda e.schema options root = .ok p)
    (htidy : TidyEvents base root.walk) (hcore : root.Core e.schema τ)
    (hparams : ∀ q ∈ root.params, q.ty.isFunction = false) {args : List Value}
    (hlen : args.length = root.params.length)
    (hargs : ∀ a ∈ args.zip root.params, a.1.conformsTo e.schema a.2.ty = true) {w : World}
    {σ : Store} (h : Sound e τ base w σ) :
    WellTyped e.schema root.body.ty (Session.outcome (e.enter (.root p 0) args w)).1 ∧
      ∃ σ', Sound e τ base (Session.outcome (e.enter (.root p 0) args w)).2 σ' := by
  obtain ⟨⟨place, hr⟩, ⟨types, ht⟩⟩ := h
  have hzip : ∀ v ∈ args, ∃ q ∈ root.params, v.conformsTo e.schema q.ty = true := by
    intro v hv
    obtain ⟨i, hi, rfl⟩ := List.mem_iff_getElem.mp hv
    have hi' : i < root.params.length := by omega
    refine ⟨root.params[i], List.getElem_mem hi', hargs (args[i], root.params[i]) ?_⟩
    refine List.mem_of_getElem? (i := i) ?_
    rw [List.getElem?_zip_eq_some]
    exact ⟨List.getElem?_eq_getElem hi, List.getElem?_eq_getElem hi'⟩
  have hplain : ∀ v ∈ args, v.Tidy σ.heap.nextId := by
    intro v hv
    obtain ⟨q, hq, hvq⟩ := hzip v hv
    exact .plain (Value.isPlain_of_conformsTo (hcore.params q hq).1 hvq)
  have hgiven : Given e.schema σ.closures (args.zip (root.params.map (·.ty))) := by
    intro a ha
    rw [List.zip_map_right] at ha
    obtain ⟨⟨v, q⟩, hmem, rfl⟩ := List.mem_map.mp ha
    have hq : q ∈ root.params := (List.of_mem_zip hmem).2
    exact .of_conformsTo (hparams q hq) (hcore.params q hq).1 (hargs (v, q) hmem)
  have hmatch := ClosuresMatch.root hp (htidy.mono hr.base) place
  -- no host function is called, so the host may be anything
  have hagree : Agree (.closed base) (RelatedAfter (.closed base) e.schema place σ)
      (e.enter (.root p 0) args w) _ :=
    invokeAt_agrees (fun f args => .noHost (e.call f args) f) e.arrayLimit callCeiling 0 hr hmatch
      hplain
  have hends := Lexical.invokeAt_ends Lexical.noHost e.arrayLimit callCeiling 0 (Nat.le_refl _) ht
    (hcore.typed types p.options.maxCallDepth) hlen hgiven
  -- the result and the store are those of the interpreter, where types are kept
  rcases hagree.cases with ⟨v, w', σ', hx, hy, ⟨place', hr', -⟩, -⟩ |
    ⟨err, w', σ', hx, hy, ⟨place', hr', -⟩, -⟩ | ⟨σ', hy, -⟩
  · rw [hy] at hends
    obtain ⟨-, types', ht', -, hv⟩ := hends
    rw [hx]
    exact ⟨(hv (v, root.body.ty) List.mem_cons_self).wellTyped, σ', ⟨place', hr'⟩, ⟨types', ht'⟩⟩
  · rw [hy] at hends
    cases err with
    | raised err =>
        obtain ⟨he, types', ht', -⟩ := hends
        rw [hx]
        exact ⟨he, σ', ⟨place', hr'⟩, ⟨types', ht'⟩⟩
    | unfinished => exact hends.elim
  · rw [hy] at hends
    exact hends.elim

/-- Any number of invocations of the root. -/
theorem Sound.run {options : Options} (hp : Program.ofLambda e.schema options root = .ok p)
    (htidy : TidyEvents base root.walk) (hcore : root.Core e.schema τ)
    (hparams : ∀ q ∈ root.params, q.ty.isFunction = false) {calls : List (List Value)}
    (hargs : ∀ args ∈ calls, args.length = root.params.length ∧
      ∀ a ∈ args.zip root.params, a.1.conformsTo e.schema a.2.ty = true) {w : World} {σ : Store}
    (h : Sound e τ base w σ) :
    ∀ r ∈ (Session.run (calls.map (e.enter (.root p 0))) w).1,
      WellTyped e.schema root.body.ty r := by
  induction calls generalizing w σ with
  | nil => exact nofun
  | cons args calls ih =>
      obtain ⟨hlen, hconf⟩ := hargs args List.mem_cons_self
      obtain ⟨hwell, σ', hnext⟩ := h.enter hp htidy hcore hparams hlen hconf
      intro r hr
      simp only [List.map_cons, Session.run] at hr
      rcases List.mem_cons.mp hr with rfl | hr
      · exact hwell
      · exact ih (fun args' h' => hargs args' (List.mem_cons_of_mem _ h')) hnext r hr

/-- **Type soundness.** A core lambda that compiles and whose parameters are no functions, invoked
any number of times on arguments of its parameters' types, gives values of its result type, or fails
by an overflow, a division by zero, a missing function or value, or too deep a recursion. This holds
for every host, since core trees call no host function. -/
theorem core_results_wellTyped {options : Options} {tree : Tree} (heap : Heap)
    (hroot : tree.lambda? = some root) (hcompile : Program.compile e.schema options tree = .ok p)
    (htidy : TidyEvents heap.nextId root.walk) (hheap : heap.Tidy heap.nextId)
    (hcore : root.Core e.schema τ) (hparams : ∀ q ∈ root.params, q.ty.isFunction = false)
    (calls : List (List Value))
    (hargs : ∀ args ∈ calls, args.length = root.params.length ∧
      ∀ a ∈ args.zip root.params, a.1.conformsTo e.schema a.2.ty = true) :
    ∀ r ∈ (Session.run (calls.map (e.enter (.root p 0))) { heap := heap }).1,
      WellTyped e.schema root.body.ty r := by
  have hp : Program.ofLambda e.schema options root = .ok p := by
    rwa [Program.compile, hroot] at hcompile
  have hstart : Sound e τ heap.nextId { heap := heap } { heap := heap } :=
    ⟨⟨_, Related.start hheap (Nat.le_refl _)⟩, [], by simp, by simp, by simp⟩
  exact hstart.run hp htidy hcore hparams hargs

end Compiled

/-- `x ↦ (() ↦ x := checked (x + 1))()`: a closure assigns to a variable that it captures. -/
def Session.increment : Lambda Value :=
  let x : Parameter := ⟨0, "x", .int .i8⟩
  .mk 1 none [x] (.invoke 2 (.ofLambda 3 (.mk 4 none [] (.assign 5 x
    (.binary 6 .addChecked (.parameter 7 x) (.constant 8 (.ofInt .i8 1) (.int .i8)))))) [])

theorem Session.increment_core (schema : Schema) :
    Session.increment.Core schema (fun _ => .int .i8) := by
  refine ⟨by decide, .invoke (.lambda (fun _ h => absurd h List.not_mem_nil) ?_)
    (fun _ h => absurd h List.not_mem_nil) rfl⟩
  refine .assign rfl rfl (.binary rfl (.parameter rfl rfl) (.constant rfl rfl ?_) rfl) rfl
  exact fun h => absurd h Bool.false_ne_true

theorem core_results_wellTyped_increment :
    let e : Environment := ⟨.empty, Native.host .empty 0 #[], 1000, 0⟩
    ∃ p, Program.compile .empty {} (.ofLambda 0 Session.increment) = .ok p ∧
      (Session.run ([[.ofInt .i8 5], [.ofInt .i8 127]].map (e.enter (.root p 0)))
        { heap := { nextId := 9 } }).1 = [.ok (.ofInt .i8 6), .error (.raised .overflow)] ∧
      ∀ r ∈ (Session.run ([[.ofInt .i8 5], [.ofInt .i8 127]].map (e.enter (.root p 0)))
        { heap := { nextId := 9 } }).1, WellTyped .empty (.int .i8) r := by
  have htidy : TidyEvents 9 Session.increment.walk := .ofDistinct (by decide) (by decide) rfl
  obtain ⟨p, hp, hrun⟩ : ∃ p, Program.compile .empty {} (.ofLambda 0 Session.increment) = .ok p ∧
      (Session.run ([[.ofInt .i8 5], [.ofInt .i8 127]].map
        (Environment.enter ⟨.empty, Native.host .empty 0 #[], 1000, 0⟩ (.root p 0)))
        { heap := { nextId := 9 } }).1 = [.ok (.ofInt .i8 6), .error (.raised .overflow)] :=
    ⟨_, rfl, by decide +kernel⟩
  have hargs : ∀ args ∈ [[Value.ofInt .i8 5], [.ofInt .i8 127]],
      args.length = Session.increment.params.length ∧
        ∀ a ∈ args.zip Session.increment.params, a.1.conformsTo .empty a.2.ty = true := by
    decide
  have hwell := core_results_wellTyped (e := ⟨.empty, Native.host .empty 0 #[], 1000, 0⟩)
    { nextId := 9 } rfl hp htidy (.empty 9 9) (Session.increment_core .empty) (by decide) _ hargs
  exact ⟨p, hp, hrun, hwell⟩

end ExprTree
