import ExprTree.Proofs.Renaming
import ExprTree.Proofs.Sessions

set_option autoImplicit false

/-! # Quoting and evaluating

A quote replaces the free parameters of a tree by the values they have at that moment. If the tree
binds, calls and assigns nothing, then compiling the result on its own and running it has the same
outcome as evaluating the tree in place: the parameters have become constants, and arrays that are
made on the way only have other identities.

The two evaluations are compared by the interpreter, which both compiled programs agree with.
-/

namespace ExprTree

open Lexical (Env Store Interp Fault Closure)

/-! ## Trees and what quoting makes of them -/

/-- Trees that hold no lambda, call and assign nothing, and quote nothing. -/
inductive Node.Elementary : Tree → Prop
  | constant {id : Nat} {kind : Kind} {ty : Ty} {v : Value} :
      Elementary (.mk id kind ty (.constant v))
  | parameter {id : Nat} {kind : Kind} {ty : Ty} {p : Parameter} :
      Elementary (.mk id kind ty (.parameter p))
  | unary {id : Nat} {kind : Kind} {ty : Ty} {x : Tree} {lifted : Bool} (notQuote : kind ≠ .quote)
      (operand : Elementary x) : Elementary (.mk id kind ty (.unary x none lifted))
  | binary {id : Nat} {kind : Kind} {ty : Ty} {l r : Tree} {lifted toNull : Bool}
      (left : Elementary l) (right : Elementary r) :
      Elementary (.mk id kind ty (.binary l r none lifted toNull none))
  | conditional {id : Nat} {kind : Kind} {ty : Ty} {t a b : Tree} (test : Elementary t)
      (ifTrue : Elementary a) (ifFalse : Elementary b) :
      Elementary (.mk id kind ty (.conditional t a b))
  | typeIs {id : Nat} {kind : Kind} {ty type : Ty} {x : Tree} (operand : Elementary x) :
      Elementary (.mk id kind ty (.typeIs x type))
  | newArray {id : Nat} {kind : Kind} {ty : Ty} {items : List Tree}
      (all : ∀ x ∈ items, Elementary x) : Elementary (.mk id kind ty (.newArray items))
  | block {id : Nat} {kind : Kind} {ty : Ty} {items : List Tree}
      (all : ∀ x ∈ items, Elementary x) : Elementary (.mk id kind ty (.block items))

/-- The second tree is the first one with every read of a parameter replaced by a constant of the
value that `s` has for it. All constants were made before `n`. -/
inductive Isolated (n : Nat) (s : Substitution Value) : Tree → Tree → Prop
  | constant {id : Nat} {kind : Kind} {ty : Ty} {v : Value} (known : v.Known n) :
      Isolated n s (.mk id kind ty (.constant v)) (.mk id kind ty (.constant v))
  | parameter {i j : Nat} {kind : Kind} {ty : Ty} {p : Parameter} {v : Value}
      (value : s.lookup p.id = some v) (known : v.Known n) :
      Isolated n s (.mk i kind ty (.parameter p)) (.constant j v ty)
  | unary {i j : Nat} {kind : Kind} {ty : Ty} {x x' : Tree} {lifted : Bool}
      (notQuote : kind ≠ .quote) (operand : Isolated n s x x') :
      Isolated n s (.mk i kind ty (.unary x none lifted)) (.mk j kind ty (.unary x' none lifted))
  | binary {i j : Nat} {kind : Kind} {ty : Ty} {l r l' r' : Tree} {lifted toNull : Bool}
      (left : Isolated n s l l') (right : Isolated n s r r') :
      Isolated n s (.mk i kind ty (.binary l r none lifted toNull none))
        (.mk j kind ty (.binary l' r' none lifted toNull none))
  | conditional {i j : Nat} {kind : Kind} {ty : Ty} {t a b t' a' b' : Tree}
      (test : Isolated n s t t') (ifTrue : Isolated n s a a') (ifFalse : Isolated n s b b') :
      Isolated n s (.mk i kind ty (.conditional t a b)) (.mk j kind ty (.conditional t' a' b'))
  | typeIs {i j : Nat} {kind : Kind} {ty type : Ty} {x x' : Tree} (operand : Isolated n s x x') :
      Isolated n s (.mk i kind ty (.typeIs x type)) (.mk j kind ty (.typeIs x' type))
  | newArray {i j : Nat} {kind : Kind} {ty : Ty} {pairs : List (Tree × Tree)}
      (all : ∀ a ∈ pairs, Isolated n s a.1 a.2) :
      Isolated n s (.mk i kind ty (.newArray (pairs.map Prod.fst)))
        (.mk j kind ty (.newArray (pairs.map Prod.snd)))
  | block {i j : Nat} {kind : Kind} {ty : Ty} {pairs : List (Tree × Tree)}
      (all : ∀ a ∈ pairs, Isolated n s a.1 a.2) :
      Isolated n s (.mk i kind ty (.block (pairs.map Prod.fst)))
        (.mk j kind ty (.block (pairs.map Prod.snd)))

/-- The substitution has a value for every parameter that is read, and these values and the
constants were made before `n`. -/
structure Closes (n : Nat) (s : Substitution Value) (es : List (Event Value)) : Prop where
  reads : ∀ p, .mention p ∈ es → ∃ v, s.lookup p.id = some v ∧ v.Known n
  constants : ∀ e ∈ es, ∀ v, e.constant? = some v → v.Known n

section Isolating

variable {n : Nat} {s : Substitution Value}

theorem Closes.part {es es' : List (Event Value)} (h : Closes n s es) (hsub : ∀ e ∈ es', e ∈ es) :
    Closes n s es' :=
  ⟨fun p hp => h.reads p (hsub _ hp), fun e he => h.constants e (hsub e he)⟩

/-- Rebuilding several trees rebuilds each of them. -/
theorem Isolated.rebuildAll {items : List Tree}
    (h : ∀ x ∈ items, ∀ k, Isolated n s x (x.rebuild s k).1) (k : Nat) :
    ∃ pairs : List (Tree × Tree), pairs.map Prod.fst = items ∧
      pairs.map Prod.snd = (Node.rebuildAll s items k).1 ∧ ∀ a ∈ pairs, Isolated n s a.1 a.2 := by
  induction items generalizing k with
  | nil => exact ⟨[], rfl, rfl, nofun⟩
  | cons x items ih =>
      have hx := h x List.mem_cons_self k
      obtain ⟨pairs, hfst, hsnd, hall⟩ :=
        ih (fun y hy => h y (List.mem_cons_of_mem x hy)) (x.rebuild s k).2
      refine ⟨(x, (x.rebuild s k).1) :: pairs, by rw [List.map_cons, hfst], ?_, ?_⟩
      · rw [List.map_cons, hsnd]
        rfl
      · intro a ha
        rcases List.mem_cons.mp ha with rfl | ha
        · exact hx
        · exact hall a ha

theorem Node.Elementary.rebuild {t : Tree} (h : t.Elementary) (hc : Closes n s t.walk) (k : Nat) :
    Isolated n s t (t.rebuild s k).1 := by
  induction h generalizing k with
  | constant => exact .constant (hc.constants _ List.mem_cons_self _ rfl)
  | @parameter id kind ty p =>
      -- this is where the tree changes: the value takes the place of the parameter
      obtain ⟨v, hv, hknown⟩ := hc.reads p (by simp [Node.walk, Payload.walk])
      simp only [Node.rebuild, hv]
      exact .parameter hv hknown
  | unary hq _ ih =>
      refine .unary hq (ih (hc.part fun e he => List.mem_cons_of_mem _ ?_) k)
      rwa [Payload.walk, if_neg hq]
  | binary _ _ ihl ihr =>
      refine .binary (ihl (hc.part fun e he => ?_) k) (ihr (hc.part fun e he => ?_) _)
      · exact List.mem_cons_of_mem _ (List.mem_append_left _ he)
      · exact List.mem_cons_of_mem _ (List.mem_append_right _ he)
  | conditional _ _ _ iht iha ihb =>
      refine .conditional (iht (hc.part fun e he => ?_) k) (iha (hc.part fun e he => ?_) _)
        (ihb (hc.part fun e he => ?_) _)
      · exact List.mem_cons_of_mem _ (List.mem_append_left _ he)
      · exact List.mem_cons_of_mem _ (List.mem_append_right _ (List.mem_append_left _ he))
      · exact List.mem_cons_of_mem _ (List.mem_append_right _ (List.mem_append_right _ he))
  | typeIs _ ih => exact .typeIs (ih (hc.part fun e he => List.mem_cons_of_mem _ he) k)
  | @newArray id kind ty items _ ih =>
      obtain ⟨pairs, rfl, hsnd, hall⟩ := Isolated.rebuildAll (fun x hx => ih x hx
        (hc.part fun e he => List.mem_cons_of_mem _ (Node.mem_walkAll.mpr ⟨x, hx, he⟩))) k
      show Isolated n s _ (.mk _ kind ty (.newArray (Node.rebuildAll s (pairs.map Prod.fst) k).1))
      rw [← hsnd]
      exact .newArray hall
  | @block id kind ty items _ ih =>
      obtain ⟨pairs, rfl, hsnd, hall⟩ := Isolated.rebuildAll (fun x hx => ih x hx
        (hc.part fun e he => List.mem_cons_of_mem _ (Node.mem_walkAll.mpr ⟨x, hx, he⟩))) k
      show Isolated n s _ (.mk _ kind ty (.block (Node.rebuildAll s (pairs.map Prod.fst) k).1))
      rw [← hsnd]
      exact .block hall

/-- Without parameters there is nothing to replace. -/
theorem Isolated.unchanged {t t' : Tree} (h : Isolated n [] t t') : Isolated n [] t t := by
  -- The same trees, each paired with itself.
  have hself : ∀ pairs : List (Tree × Tree), (∀ a ∈ pairs, Isolated n [] a.1 a.1) →
      ∃ same : List (Tree × Tree), same.map Prod.fst = pairs.map Prod.fst ∧
        same.map Prod.snd = pairs.map Prod.fst ∧ ∀ a ∈ same, Isolated n [] a.1 a.2 := by
    intro pairs hall
    refine ⟨pairs.map fun a => (a.1, a.1), by simp, by simp, ?_⟩
    intro a ha
    obtain ⟨b, hb, rfl⟩ := List.mem_map.mp ha
    exact hall b hb
  induction h with
  | constant known => exact .constant known
  | parameter value _ => cases value
  | unary hq _ ih => exact .unary hq ih
  | binary _ _ ihl ihr => exact .binary ihl ihr
  | conditional _ _ _ iht iha ihb => exact .conditional iht iha ihb
  | typeIs _ ih => exact .typeIs ih
  | @newArray i _ kind ty pairs _ ih =>
      obtain ⟨same, hfst, hsnd, hall⟩ := hself pairs ih
      have h : Isolated n [] (.mk i kind ty (.newArray (same.map Prod.fst)))
          (.mk i kind ty (.newArray (same.map Prod.snd))) := .newArray hall
      rwa [hfst, hsnd] at h
  | @block i _ kind ty pairs _ ih =>
      obtain ⟨same, hfst, hsnd, hall⟩ := hself pairs ih
      have h : Isolated n [] (.mk i kind ty (.block (same.map Prod.fst)))
          (.mk i kind ty (.block (same.map Prod.snd))) := .block hall
      rwa [hfst, hsnd] at h

/-- **What a quote makes of a tree.** -/
theorem Node.Elementary.substitute {t : Tree} (h : t.Elementary) (hc : Closes n s t.walk)
    (k : Nat) : Isolated n s t (t.substitute s k).1 := by
  unfold Node.substitute
  cases s with
  | nil => exact (h.rebuild hc k).unchanged
  | cons a s => exact h.rebuild hc k

/-! ## Free parameters -/

/-- There is no lambda in an elementary tree. -/
theorem Node.Elementary.not_enter {t : Tree} (h : t.Elementary) (l : Lambda Value) :
    .enter l ∉ t.walk := by
  have hall : ∀ items : List Tree, (∀ x ∈ items, .enter l ∉ x.walk) →
      .enter l ∉ Node.walkAll items := by
    intro items hnot hmem
    obtain ⟨x, hx, hl⟩ := Node.mem_walkAll.mp hmem
    exact hnot x hx hl
  induction h with
  | constant | parameter => simp [Node.walk, Payload.walk]
  | unary hq _ ih => simpa [Node.walk, Payload.walk, hq] using ih
  | binary _ _ ihl ihr => simpa [Node.walk, Payload.walk] using ⟨ihl, ihr⟩
  | conditional _ _ _ iht iha ihb => simpa [Node.walk, Payload.walk] using ⟨iht, iha, ihb⟩
  | typeIs _ ih => simpa [Node.walk, Payload.walk] using ih
  | newArray _ ih | block _ ih => simpa [Node.walk, Payload.walk] using hall _ ih

/-- Outside of every lambda, each parameter that is mentioned is found to be free. -/
theorem FreeScan.mem_free {es : List (Event Value)} (hes : ∀ l, .enter l ∉ es) {sc : FreeScan}
    (hsc : sc.declared = []) {p : Parameter}
    (hp : .mention p ∈ es ∨ ∃ q ∈ sc.free, q.id = p.id) :
    ∃ q ∈ (es.foldl FreeScan.step sc).free, q.id = p.id := by
  induction es generalizing sc with
  | nil =>
      rcases hp with hp | hp
      · cases hp
      · exact hp
  | cons e es ih =>
      have hstep : (sc.step e).declared = [] ∧ ∀ q ∈ sc.free, q ∈ (sc.step e).free := by
        cases e with
        | enter l => exact absurd List.mem_cons_self (hes l)
        | leave l => exact ⟨FreeScan.declared_retract_of_nil hsc l.params, fun q hq => hq⟩
        | mention p =>
            simp only [FreeScan.step]
            split
            · exact ⟨hsc, fun q hq => hq⟩
            · exact ⟨hsc, fun q hq => List.mem_append_left _ hq⟩
        | _ => exact ⟨hsc, fun q hq => hq⟩
      refine ih (fun l hl => hes l (List.mem_cons_of_mem e hl)) hstep.1 ?_
      rcases hp with hp | ⟨q, hq, hqp⟩
      · rcases List.mem_cons.mp hp with rfl | hp
        · right
          simp only [FreeScan.step]
          -- Either the parameter is known to be free already, or it is added.
          split
          case isTrue h =>
            have hknown : sc.isKnown p = true := by
              simpa [FreeScan.isDeclared, hsc] using h
            simpa [FreeScan.isKnown] using hknown
          case isFalse => exact ⟨p, by simp, rfl⟩
        · exact .inl hp
      · exact .inr ⟨q, hstep.2 q hq, hqp⟩

theorem Node.Elementary.mem_freeParameters {t : Tree} (h : t.Elementary) {p : Parameter}
    (hp : .mention p ∈ t.walk) : ∃ q ∈ t.freeParameters, q.id = p.id :=
  FreeScan.mem_free h.not_enter rfl (.inl hp)

/-- Captured values are the values that the parameters have. -/
theorem Lexical.Store.values?_eq_some {σ : Store} {env : Env} {ps : List Parameter}
    (h : σ.values? env ps = some s) :
    (∀ q ∈ ps, ∃ v, s.lookup q.id = some v) ∧
      ∀ p v, s.lookup p = some v → σ.value? env p = some v := by
  induction ps generalizing s with
  | nil =>
      cases h
      exact ⟨nofun, nofun⟩
  | cons q ps ih =>
      obtain ⟨v, hv, h⟩ := Option.bind_eq_some_iff.mp h
      obtain ⟨rest, hrest, h⟩ := Option.bind_eq_some_iff.mp h
      cases h
      obtain ⟨hfound, hvalues⟩ := ih hrest
      refine ⟨fun q' hq' => ?_, fun p u hu => ?_⟩
      · rw [List.lookup_cons]
        split
        case h_1 => exact ⟨v, rfl⟩
        case h_2 heq =>
          -- the first entry is for another parameter
          rcases List.mem_cons.mp hq' with rfl | hq'
          · simp at heq
          · exact hfound q' hq'
      · rw [List.lookup_cons] at hu
        split at hu
        case h_1 heq =>
          cases hu
          rw [beq_iff_eq.mp heq]
          exact hv
        case h_2 => exact hvalues p u hu

end Isolating

/-! ## Two evaluations side by side -/

/-- New arrays get identities from `base` on in one evaluation, and from `base + offset` on in the
other one. -/
structure Shift where
  base : Nat
  offset : Nat

/-- The identity in the second evaluation. -/
def Shift.apply (K : Shift) (i : Nat) : Nat := if i < K.base then i else i + K.offset

theorem Shift.apply_of_lt {K : Shift} {i : Nat} (h : i < K.base) : K.apply i = i := if_pos h

theorem Shift.apply_of_le {K : Shift} {i : Nat} (h : K.base ≤ i) : K.apply i = i + K.offset :=
  if_neg (by omega)

theorem Shift.injective (K : Shift) (i j : Nat) (h : K.apply i = K.apply j) : i = j := by
  unfold Shift.apply at h
  split at h <;> split at h <;> omega

/-- The heaps differ in the next identity only, and in the first store the parameters have the
values of the substitution. -/
structure Mirrored (K : Shift) (env : Env) (s : Substitution Value) (σ σ' : Store) : Prop where
  heap : σ'.heap = { σ.heap with nextId := σ.heap.nextId + K.offset }
  base : K.base ≤ σ.heap.nextId
  known : σ.heap.Known K.base
  values : ∀ p v, s.lookup p = some v → σ.value? env p = some v

/-- The same outcome up to `rename`, without a call of a host function. -/
def SameEnd (K : Shift) (env : Env) (s : Substitution Value) {β : Type} (rename : β → β) :
    EStateM.Result Fault Store β → EStateM.Result Fault Store β → Prop
  | .ok b σ, .ok b' σ' => b' = rename b ∧ Mirrored K env s σ σ'
  | .error e _, .error e' _ => e' = e ∧ e ≠ .foreign
  | _, _ => False

/-- Both computations have the same outcome from such stores. -/
def Mirrors (K : Shift) (env : Env) (s : Substitution Value) {β : Type} (rename : β → β)
    (x y : Interp β) : Prop :=
  ∀ σ σ', Mirrored K env s σ σ' → SameEnd K env s rename (x σ) (y σ')

namespace Mirrors

variable {K : Shift} {env : Env} {s : Substitution Value} {β γ : Type} {rename : β → β}
  {rename' : γ → γ}

theorem pure (b : β) : Mirrors K env s rename (Pure.pure b) (Pure.pure (rename b)) :=
  fun _ _ h => ⟨rfl, h⟩

/-- A value that holds no array is the same on both sides. -/
theorem plain {v : Value} (h : v.isPlain = true) :
    Mirrors K env s (·.rename K.apply) (Pure.pure v) (Pure.pure v) :=
  fun _ _ hσ => ⟨(Value.rename_of_isPlain h).symm, hσ⟩

theorem stuck : Mirrors K env s rename Interp.stuck Interp.stuck := fun _ _ _ => ⟨rfl, nofun⟩

theorem bind {x y : Interp β} {f g : β → Interp γ} (hx : Mirrors K env s rename x y)
    (hf : ∀ b, Mirrors K env s rename' (f b) (g (rename b))) :
    Mirrors K env s rename' (x >>= f) (y >>= g) := by
  intro σ σ' h
  have hxy := hx σ σ' h
  simp only [Bind.bind, EStateM.bind]
  -- a value on one side and an error on the other do not have the same end
  cases hσ : x σ with
  | ok b σ₁ =>
      cases hσ' : y σ' with
      | ok b' σ₁' =>
          rw [hσ, hσ'] at hxy
          obtain ⟨rfl, h₁⟩ := hxy
          exact hf b σ₁ σ₁' h₁
      | error e' σ₁' =>
          rw [hσ, hσ'] at hxy
          exact False.elim hxy
  | error e σ₁ =>
      cases hσ' : y σ' with
      | ok b' σ₁' =>
          rw [hσ, hσ'] at hxy
          exact False.elim hxy
      | error e' σ₁' =>
          rw [hσ, hσ'] at hxy
          exact hxy

theorem ite {c : Prop} [Decidable c] {x y x' y' : Interp β} (h : Mirrors K env s rename x y)
    (h' : Mirrors K env s rename x' y') :
    Mirrors K env s rename (if c then x else x') (if c then y else y') := by
  split
  · exact h
  · exact h'

theorem ofExcept {x y : Except RuntimeError β} (h : y = x.map rename) :
    Mirrors K env s rename (Interp.ofExcept x) (Interp.ofExcept y) := by
  subst h
  cases x with
  | ok b => exact .pure b
  | error e => exact fun _ _ _ => ⟨rfl, nofun⟩

/-- The same result on both sides. -/
theorem same (x : Except RuntimeError β) :
    Mirrors K env s id (Interp.ofExcept x) (Interp.ofExcept x) :=
  .ofExcept (by cases x <;> rfl)

theorem ofOption {x y : Option (Except RuntimeError β)} (h : y = x.map (Except.map rename)) :
    Mirrors K env s rename (Interp.ofOption x) (Interp.ofOption y) := by
  subst h
  cases x with
  | some r => exact .ofExcept rfl
  | none => exact fun _ _ _ => ⟨rfl, nofun⟩

/-- What is read from the heap does not depend on the identities that are left. -/
theorem readHeap (read read' : Heap → Option (Except RuntimeError β))
    (h : ∀ heap k, heap.Known K.base →
      read' { heap with nextId := k } = (read heap).map (Except.map rename)) :
    Mirrors K env s rename (do Interp.ofOption (read (← get).heap))
      (do Interp.ofOption (read' (← get).heap)) := by
  intro σ σ' hσ
  have hread := h σ.heap (σ.heap.nextId + K.offset) hσ.known
  rw [← hσ.heap] at hread
  exact ofOption hread σ σ' hσ

theorem newArray (items : List Value) :
    Mirrors K env s (·.rename K.apply) (Interp.alloc (·.newArray items))
      (Interp.alloc (·.newArray (items.map (·.rename K.apply)))) := by
  intro σ σ' h
  -- the next identity is not below the base, so it is one that is shifted
  have hid : σ'.heap.nextId = K.apply σ.heap.nextId := by
    rw [h.heap, Shift.apply_of_le h.base]
  refine ⟨?_, ?_, Nat.le_succ_of_le h.base, h.known, h.values⟩
  · show Value.array σ'.heap.nextId _ = Value.rename K.apply (.array σ.heap.nextId items)
    rw [Value.rename, Value.renameAll_eq_map, hid]
  · show { σ'.heap with nextId := σ'.heap.nextId + 1 }
      = { σ.heap with nextId := σ.heap.nextId + 1 + K.offset }
    rw [h.heap, Nat.add_right_comm]

/-- A parameter in the one tree, a constant in the other. -/
theorem load {p : Parameter} {v : Value} (hv : s.lookup p.id = some v) (hk : v.Known K.base) :
    Mirrors K env s (·.rename K.apply) (Interp.load env p) (Pure.pure v) := by
  intro σ σ' h
  rw [Interp.load_eq (h.values p.id v hv)]
  exact ⟨(hk.rename_eq fun i hi => Shift.apply_of_lt hi).symm, h⟩

end Mirrors

/-! ## Operators without methods -/

/-- An action that calls no host function. -/
def UnaryAction.isPrimitive : UnaryAction → Bool
  | .user _ => false
  | _ => true

/-- An action that calls no host function. -/
def BinaryAction.isPrimitive : BinaryAction → Bool
  | .user _ => false
  | _ => true

/-- A form that calls no host function. -/
def BinaryForm.isPrimitive : BinaryForm → Bool
  | .strict action _ => action.isPrimitive
  | .kleene _ | .shortCircuit .. => true
  | .userShortCircuit .. => false

theorem unaryAction?_isPrimitive {schema : Schema} {kind : Kind} {ty operand : Ty}
    {lifted lift : Bool} {action : UnaryAction}
    (h : unaryAction? schema kind ty operand none lifted = some (action, lift)) :
    action.isPrimitive = true := by
  unfold unaryAction? at h
  split at h
  · cases h
  split at h
  · split at h <;> cases h
    rfl
  · simp only at h
    split at h
    all_goals
      obtain ⟨a, -, ha⟩ := Option.map_eq_some_iff.mp h
      cases ha
      rfl

theorem binaryForm?_isPrimitive {schema : Schema} {kind : Kind} {ty left : Ty} {lifted : Bool}
    {form : BinaryForm} (h : binaryForm? schema kind ty left none lifted = some form) :
    form.isPrimitive = true := by
  unfold binaryForm? at h
  split at h
  · cases h
  split at h
  · cases h
    rfl
  split at h
  · cases h
    rfl
  · simp only at h
    split at h
    · cases h
      rfl
    · obtain ⟨op, -, rfl⟩ := Option.map_eq_some_iff.mp h
      rfl

namespace Mirrors

variable {K : Shift} {env : Env} {s : Substitution Value} {cx cx' : Lexical.Context}

theorem unary {action : UnaryAction} (h : action.isPrimitive = true)
    (hcx : cx'.schema = cx.schema) (v : Value) :
    Mirrors K env s (·.rename K.apply) (cx.unary action v)
      (cx'.unary action (v.rename K.apply)) := by
  cases action with
  | user m => cases h
  | primitive op => exact .ofExcept (op.apply_rename v)
  | convert c =>
      simp only [Lexical.Context.unary, hcx]
      exact .ofExcept (c.apply_rename cx.schema v)
  | typeAs ty =>
      simp only [Lexical.Context.unary, hcx, Value.conformsTo_rename]
      cases v.conformsTo cx.schema ty with
      | true => exact .pure v
      | false => exact .plain rfl
  | typeIs ty =>
      simp only [Lexical.Context.unary, hcx, Value.conformsTo_rename, Value.isNull_rename]
      exact .plain rfl

theorem liftedUnary {action : UnaryAction} (h : action.isPrimitive = true)
    (hcx : cx'.schema = cx.schema) (lifted : Bool) (v : Value) :
    Mirrors K env s (·.rename K.apply) (cx.liftedUnary action lifted v)
      (cx'.liftedUnary action lifted (v.rename K.apply)) := by
  simp only [Lexical.Context.liftedUnary, Value.isNull_rename]
  cases lifted && v.isNull with
  | true => exact .plain rfl
  | false => exact .unary h hcx v

theorem binary {action : BinaryAction} (h : action.isPrimitive = true) (l r : Value) :
    Mirrors K env s (·.rename K.apply) (cx.binary action l r)
      (cx'.binary action (l.rename K.apply) (r.rename K.apply)) := by
  cases action with
  | user m => cases h
  | primitive op =>
      refine .readHeap (op.apply · l r) (op.apply · (l.rename K.apply) (r.rename K.apply))
        fun heap k _ => ?_
      rw [op.apply_rename K.injective heap k l r]
      -- The result holds no array, so renaming does not change it.
      cases happ : op.apply heap l r with
      | none => rfl
      | some result =>
          cases result with
          | error e => rfl
          | ok v =>
              have hplain := Value.isPlain_of_isScalar (op.apply_isScalar happ)
              exact congrArg (some ∘ Except.ok) (Value.rename_of_isPlain hplain).symm
  | element =>
      refine .readHeap (fun heap => some (l.element heap r))
        (fun heap => some ((l.rename K.apply).element heap (r.rename K.apply)))
        fun heap k hknown => congrArg some ?_
      exact Value.element_rename (fun i hi => Shift.apply_of_lt hi) hknown k l r

theorem liftedBinary {action : BinaryAction} (h : action.isPrimitive = true)
    (onNull : Option NullResult) (l r : Value) :
    Mirrors K env s (·.rename K.apply) (cx.liftedBinary action onNull l r)
      (cx'.liftedBinary action onNull (l.rename K.apply) (r.rename K.apply)) := by
  cases onNull with
  | none => exact .binary h l r
  | some n =>
      simp only [Lexical.Context.liftedBinary, Value.isNull_rename, NullResult.resolve_rename]
      -- renaming keeps what is missing missing, so both sides take the same branch
      cases l.isNull || r.isNull with
      | true => exact .plain (Value.isPlain_of_isScalar (NullResult.resolve_isScalar n l r))
      | false => exact .binary h l r

theorem form {left right left' right' : Interp Value}
    (hl : Mirrors K env s (·.rename K.apply) left left')
    (hr : Mirrors K env s (·.rename K.apply) right right') {form : BinaryForm}
    (h : form.isPrimitive = true) :
    Mirrors K env s (·.rename K.apply) (cx.form left right form)
      (cx'.form left' right' form) := by
  cases form with
  | userShortCircuit test method lifted => cases h
  | strict action onNull =>
      exact hl.bind fun l => hr.bind fun r => .liftedBinary h onNull l r
  | kleene conjunction =>
      simp only [Lexical.Context.form]
      refine hl.bind fun l => ?_
      rw [Value.asOptionalBool_rename]
      refine (Mirrors.same l.asOptionalBool).bind fun a => hr.bind fun r => ?_
      rw [Value.asOptionalBool_rename]
      refine (Mirrors.same r.asOptionalBool).bind fun b => ?_
      exact .plain (Value.isPlain_of_isScalar (kleeneValue_isScalar conjunction a b))
  | shortCircuit decisive lifted =>
      simp only [Lexical.Context.form]
      refine hl.bind fun l => ?_
      cases lifted with
      | false =>
          simp only [Bool.false_eq_true, ↓reduceIte, Value.asBool_rename]
          refine (Mirrors.same l.asBool).bind fun a => ?_
          exact .ite (.plain rfl) hr
      | true =>
          simp only [↓reduceIte, Value.asOptionalBool_rename]
          refine (Mirrors.same l.asOptionalBool).bind fun a => ?_
          cases a with
          | some a => exact .ite (.plain rfl) hr
          | none =>
              refine hr.bind fun r => ?_
              rw [Value.asOptionalBool_rename]
              refine (Mirrors.same r.asOptionalBool).bind fun b => ?_
              cases b with
              | none => exact .plain rfl
              | some b => exact .ite (.plain rfl) (.plain rfl)

theorem interpretAll {env' : Env} {pairs : List (Tree × Tree)}
    (h : ∀ a ∈ pairs, Mirrors K env s (·.rename K.apply) (a.1.interpret cx env)
      (a.2.interpret cx' env')) :
    Mirrors K env s (·.map (·.rename K.apply)) (Node.interpretAll cx env (pairs.map Prod.fst))
      (Node.interpretAll cx' env' (pairs.map Prod.snd)) := by
  induction pairs with
  | nil => exact .pure []
  | cons a pairs ih =>
      refine (h a List.mem_cons_self).bind fun v => ?_
      refine (ih fun b hb => h b (List.mem_cons_of_mem a hb)).bind fun vs => ?_
      exact .pure (v :: vs)

theorem interpretBlock {env' : Env} {pairs : List (Tree × Tree)}
    (h : ∀ a ∈ pairs, Mirrors K env s (·.rename K.apply) (a.1.interpret cx env)
      (a.2.interpret cx' env')) (last : Value) :
    Mirrors K env s (·.rename K.apply)
      (Node.interpretBlock cx env last (pairs.map Prod.fst))
      (Node.interpretBlock cx' env' (last.rename K.apply) (pairs.map Prod.snd)) := by
  induction pairs generalizing last with
  | nil => exact .pure last
  | cons a pairs ih =>
      refine (h a List.mem_cons_self).bind fun v => ?_
      exact ih (fun b hb => h b (List.mem_cons_of_mem a hb)) v

end Mirrors

theorem Isolated.ty_eq {n : Nat} {s : Substitution Value} {t t' : Tree} (h : Isolated n s t t') :
    t'.ty = t.ty := by
  cases h <;> rfl

/-- An array that is given by its elements. -/
theorem Payload.interpret_newArrayInit {cx : Lexical.Context} {env : Env} {kind : Kind} {ty : Ty}
    {items : List Tree} (hk : kind ≠ .newArrayBounds) :
    Payload.interpret cx env kind ty (.newArray items) = (do
      let items ← Node.interpretAll cx env items
      Interp.alloc (·.newArray items)) := by
  cases kind with
  | newArrayBounds => exact absurd rfl hk
  | _ => rfl

/-- An array that is given by its length needs one length and an array type. -/
theorem Payload.interpret_newArrayBounds_stuck {cx : Lexical.Context} {env : Env} {ty : Ty}
    {items : List Tree} (h : (∃ x, items = [x]) → ty.element? = none) :
    Payload.interpret cx env .newArrayBounds ty (.newArray items) = Interp.stuck := by
  match items with
  | [] => cases ty <;> rfl
  | [x] =>
      have hnone : ty.element? = none := h ⟨x, rfl⟩
      cases ty with
      | array | list => cases hnone
      | _ => rfl
  | _ :: _ :: _ => cases ty <;> rfl

/-- **Substitution.** A tree in an environment and the tree with the values of that environment
substituted have the same outcome. -/
theorem Isolated.mirrors {K : Shift} {s : Substitution Value} {cx cx' : Lexical.Context}
    {env env' : Env} (hcx : cx'.schema = cx.schema) (hlimit : cx'.arrayLimit = cx.arrayLimit)
    {t t' : Tree} (h : Isolated K.base s t t') :
    Mirrors K env s (·.rename K.apply) (t.interpret cx env) (t'.interpret cx' env') := by
  induction h with
  | @constant id kind ty v known =>
      -- an old constant has no identity that is shifted
      have hv : v.rename K.apply = v := known.rename_eq fun i hi => Shift.apply_of_lt hi
      exact fun σ σ' hσ => ⟨hv.symm, hσ⟩
  | parameter value known => exact .load value known
  | @unary i j kind ty x x' lifted hq hx ih =>
      simp only [Node.interpret, Payload.interpret, if_neg hq, hx.ty_eq, hcx]
      cases haction : unaryAction? cx.schema kind ty x.ty none lifted with
      | none => exact .stuck
      | some a =>
          exact ih.bind fun v => .liftedUnary (unaryAction?_isPrimitive haction) hcx a.2 v
  | @binary i j kind ty l r l' r' lifted toNull hl _ ihl ihr =>
      simp only [Node.interpret, Payload.interpret]
      by_cases hk : kind = .coalesce
      · simp only [if_pos hk]
        refine ihl.bind fun v => ?_
        rw [Value.isNull_rename]
        cases v.isNull with
        | true => exact ihr
        | false => exact .pure v
      · simp only [if_neg hk, hl.ty_eq, hcx]
        cases hform : binaryForm? cx.schema kind ty l.ty none lifted with
        | none => exact .stuck
        | some form => exact .form ihl ihr (binaryForm?_isPrimitive hform)
  | conditional _ _ _ iht iha ihb =>
      simp only [Node.interpret, Payload.interpret]
      refine iht.bind fun v => ?_
      rw [Value.asBool_rename]
      refine (Mirrors.same v.asBool).bind fun b => ?_
      cases b with
      | true => exact iha
      | false => exact ihb
  | typeIs _ ih => exact ih.bind fun v => .unary rfl hcx v
  | @newArray i j kind ty pairs _ ih =>
      simp only [Node.interpret]
      by_cases hk : kind = .newArrayBounds
      case neg =>
        rw [Payload.interpret_newArrayInit hk, Payload.interpret_newArrayInit hk]
        exact (Mirrors.interpretAll ih).bind fun vs => .newArray vs
      subst hk
      -- an array is given by one length and an element type; anything else has no meaning, and this
      -- is the same on both sides because they have the same shape
      by_cases hone : ∃ a e, pairs = [a] ∧ ty.element? = some e
      · obtain ⟨a, e, rfl, he⟩ := hone
        simp only [List.map_cons, List.map_nil]
        rw [Payload.interpret_newArrayBounds he, Payload.interpret_newArrayBounds he]
        refine (ih a List.mem_cons_self).bind fun v => ?_
        rw [Value.asLength_rename, hlimit]
        refine (Mirrors.same (v.asLength cx.arrayLimit)).bind fun n => ?_
        have hnew : Mirrors K env s (·.rename K.apply)
            (Interp.alloc (·.newArray (List.replicate n e.default))) _ := .newArray _
        have hplain := Value.isPlain_of_isScalar (Ty.default_isScalar e)
        rwa [List.map_replicate, Value.rename_of_isPlain hplain] at hnew
      · have hstuck : ∀ f : Tree × Tree → Tree, (∃ x, pairs.map f = [x]) → ty.element? = none := by
          rintro f ⟨x, hx⟩
          obtain ⟨a, rfl, -⟩ := List.map_eq_singleton_iff.mp hx
          exact Option.eq_none_iff_forall_ne_some.mpr fun e he => hone ⟨a, e, rfl, he⟩
        rw [Payload.interpret_newArrayBounds_stuck (hstuck Prod.fst),
          Payload.interpret_newArrayBounds_stuck (hstuck Prod.snd)]
        exact .stuck
  | @block i j kind ty pairs _ ih => exact .interpretBlock ih .unit

/-! ## Compilation -/

section Compilation

variable {n : Nat} {s : Substitution Value} {cx cx' : EmitContext} {scope scope' : EmitScope}

theorem Node.emitAll_isolated {pairs : List (Tree × Tree)}
    (h : ∀ a ∈ pairs, ∀ {st r}, a.1.emit cx scope st = .ok r →
      ∀ st', ∃ r', a.2.emit cx' scope' st' = .ok r') {st : EmitState} {r : List Code × EmitState}
    (hr : Node.emitAll cx scope (pairs.map Prod.fst) st = .ok r) (st' : EmitState) :
    ∃ r', Node.emitAll cx' scope' (pairs.map Prod.snd) st' = .ok r' := by
  induction pairs generalizing st r st' with
  | nil => exact ⟨_, Node.emitAll_nil.mpr ⟨rfl, rfl⟩⟩
  | cons a pairs ih =>
      obtain ⟨code, st₁, rest, ha, hrest, -⟩ := Node.emitAll_cons.mp hr
      obtain ⟨⟨code', st₁'⟩, ha'⟩ := h a List.mem_cons_self ha st'
      obtain ⟨⟨rest', st₂'⟩, hrest'⟩ :=
        ih (fun b hb => h b (List.mem_cons_of_mem a hb)) hrest st₁'
      exact ⟨_, Node.emitAll_cons.mpr ⟨code', st₁', rest', ha', hrest', rfl⟩⟩

/-- A tree that compiles still does after its parameters have been replaced, whatever is in scope
there. -/
theorem Isolated.emits (hcx : cx'.schema = cx.schema) {t t' : Tree} (h : Isolated n s t t')
    {st : EmitState} {out : Code × EmitState} (hr : t.emit cx scope st = .ok out)
    (st' : EmitState) : ∃ out', t'.emit cx' scope' st' = .ok out' := by
  induction h generalizing st out st' with
  | @constant id kind ty v =>
      simp only [Node.emit] at hr ⊢
      obtain ⟨hk, -⟩ := Payload.emit_constant.mp hr
      obtain ⟨out', hout'⟩ := emitConstant_total v st'
      exact ⟨out', Payload.emit_constant.mpr ⟨hk, hout'⟩⟩
  | @parameter i j kind ty p v =>
      -- whatever the parameter was bound to, a constant needs nothing in scope
      simp only [Node.constant, Node.emit]
      obtain ⟨out', hout'⟩ := emitConstant_total v st'
      exact ⟨out', Payload.emit_constant.mpr ⟨rfl, hout'⟩⟩
  | unary hq hx ih =>
      simp only [Node.emit] at hr ⊢
      obtain ⟨action, lift, operand, haction, hop, -⟩ := (Payload.emit_unary hq).mp hr
      obtain ⟨⟨operand', st₁'⟩, hop'⟩ := ih hop st'
      rw [← hx.ty_eq, ← hcx] at haction
      exact ⟨_, (Payload.emit_unary hq).mpr ⟨action, lift, operand', haction, hop', rfl⟩⟩
  | @binary i j kind ty l r l' r' lifted toNull hl _ ihl ihr =>
      simp only [Node.emit] at hr ⊢
      by_cases hk : kind = .coalesce
      · subst hk
        obtain ⟨left, st₁, right, hleft, hright, -⟩ := Payload.emit_coalesce.mp hr
        obtain ⟨⟨left', st₁'⟩, hleft'⟩ := ihl hleft st'
        obtain ⟨⟨right', st₂'⟩, hright'⟩ := ihr hright st₁'
        exact ⟨_, Payload.emit_coalesce.mpr ⟨left', st₁', right', hleft', hright', rfl⟩⟩
      · obtain ⟨form, left, st₁, right, hform, hleft, hright, -⟩ := (Payload.emit_binary hk).mp hr
        obtain ⟨⟨left', st₁'⟩, hleft'⟩ := ihl hleft st'
        obtain ⟨⟨right', st₂'⟩, hright'⟩ := ihr hright st₁'
        rw [← hl.ty_eq, ← hcx] at hform
        exact ⟨_, (Payload.emit_binary hk).mpr
          ⟨form, left', st₁', right', hform, hleft', hright', rfl⟩⟩
  | conditional _ _ _ iht iha ihb =>
      simp only [Node.emit] at hr ⊢
      obtain ⟨hk, test, st₁, ifTrue, st₂, ifFalse, ht, ha, hb, -⟩ :=
        Payload.emit_conditional.mp hr
      obtain ⟨⟨test', st₁'⟩, ht'⟩ := iht ht st'
      obtain ⟨⟨ifTrue', st₂'⟩, ha'⟩ := iha ha st₁'
      obtain ⟨⟨ifFalse', st₃'⟩, hb'⟩ := ihb hb st₂'
      exact ⟨_, Payload.emit_conditional.mpr
        ⟨hk, test', st₁', ifTrue', st₂', ifFalse', ht', ha', hb', rfl⟩⟩
  | typeIs _ ih =>
      simp only [Node.emit] at hr ⊢
      obtain ⟨hk, operand, hop, -⟩ := Payload.emit_typeIs.mp hr
      obtain ⟨⟨operand', st₁'⟩, hop'⟩ := ih hop st'
      exact ⟨_, Payload.emit_typeIs.mpr ⟨hk, operand', hop', rfl⟩⟩
  | @newArray i j kind ty pairs _ ih =>
      simp only [Node.emit] at hr ⊢
      rcases Payload.emit_newArray.mp hr with ⟨hk, codes, hcodes, -⟩ |
        ⟨hk, x, e, length, hone, he, hlength, -⟩
      · obtain ⟨⟨codes', st₁'⟩, hcodes'⟩ := Node.emitAll_isolated ih hcodes st'
        exact ⟨_, Payload.emit_newArray.mpr (.inl ⟨hk, codes', hcodes', rfl⟩)⟩
      · obtain ⟨a, rfl, rfl⟩ := List.map_eq_singleton_iff.mp hone
        obtain ⟨⟨length', st₁'⟩, hlength'⟩ := ih a List.mem_cons_self hlength st'
        exact ⟨_, Payload.emit_newArray.mpr (.inr ⟨hk, a.2, e, length', rfl, he, hlength', rfl⟩)⟩
  | block _ ih =>
      simp only [Node.emit] at hr ⊢
      obtain ⟨hk, codes, hcodes, -⟩ := Payload.emit_block.mp hr
      obtain ⟨⟨codes', st₁'⟩, hcodes'⟩ := Node.emitAll_isolated ih hcodes st'
      exact ⟨_, Payload.emit_block.mpr ⟨hk, codes', hcodes', rfl⟩⟩

end Compilation

end ExprTree
