import Mathlib.Data.List.Induction
import ExprTree.Proofs.Operands
import ExprTree.Proofs.Texts

set_option autoImplicit false

/-! # Sums that begin with a string

An addition whose left operand has type `string` concatenates texts, and a missing value counts as
the empty text. But the node is lifted as soon as its right operand has an optional type, and a
lifted addition gives a missing value if one of its operands is missing. In a sum of several
operands the two rules meet: what stands before a missing operand of optional type is lost, and the
sum goes on from there. And a value that leads to a list containing itself has no text: an addition
that asks for it never ends. `eval_string_sum` says what a sum evaluates to, when it does not end,
when it is the text of all its operands, and when it is missing.
-/

namespace ExprTree

/-! ## Values -/

/-- The value, if there ever is one. -/
def Outcome.ofValue? {β : Type} : Option β → Outcome β
  | some a => .ok a
  | none => .error .unfinished

namespace Value

/-- The value leads to a list that contains itself. -/
def Endless (heap : Heap) (v : Value) : Prop := ∃ a ∈ v.lists, ReachesLoop heap.Contains a

/-- The texts of values in their order; a missing value has the empty text. -/
def joinedText (heap : Heap) (vs : List Value) : Option String :=
  (vs.mapM fun v : Value => if v.isNull then some "" else v.text heap).map String.join

/-- The result of adding `r` to a string `l`. An addition is lifted if its right operand has an
optional type; it then gives a missing value for a missing operand. -/
def appended (heap : Heap) (optional : Bool) (l r : Value) : Option Value :=
  if optional && (l.isNull || r.isNull) then some .null
  else (joinedText heap [l, r]).map .string

variable {heap : Heap}

theorem isNull_eq_true {v : Value} : v.isNull = true ↔ v = .null :=
  ⟨eq_null, fun h => h ▸ rfl⟩

theorem concatText_eq_ite (v : Value) :
    v.concatText heap = if v.isNull then some "" else v.text heap := by
  cases v <;> rfl

theorem concatText_eq_none {v : Value} : v.concatText heap = none ↔ v.Endless heap := by
  rw [concatText_eq_ite]
  cases hn : v.isNull with
  | true =>
      obtain rfl := eq_null hn
      simp [Endless, lists]
  | false => exact text_eq_none_iff

theorem joinedText_nil : joinedText heap [] = some "" := rfl

theorem joinedText_cons (v : Value) (vs : List Value) :
    joinedText heap (v :: vs)
      = (v.concatText heap).bind fun a => (joinedText heap vs).map (a ++ ·) := by
  rw [joinedText, List.mapM_cons, ← concatText_eq_ite, joinedText]
  cases v.concatText heap with
  | none => rfl
  | some a =>
      cases vs.mapM fun v : Value => if v.isNull then some "" else v.text heap with
      | none => rfl
      | some texts => exact congrArg some (String.join_cons ..)

theorem joinedText_pair (l r : Value) :
    joinedText heap [l, r]
      = (l.concatText heap).bind fun a => (r.concatText heap).map (a ++ ·) := by
  rw [joinedText_cons, joinedText_cons, joinedText_nil]
  cases r.concatText heap <;> simp

/-- The first two texts may be joined before the others. -/
theorem joinedText_cons_cons (l r : Value) (vs : List Value) :
    joinedText heap (l :: r :: vs)
      = (joinedText heap [l, r]).bind fun a => joinedText heap (.string a :: vs) := by
  have hstring : ∀ s, joinedText heap (.string s :: vs) = (joinedText heap vs).map (s ++ ·) :=
    fun s => joinedText_cons (.string s) vs
  rw [joinedText_pair, joinedText_cons, joinedText_cons]
  simp only [hstring]
  cases l.concatText heap with
  | none => rfl
  | some a =>
      cases r.concatText heap with
      | none => rfl
      | some b => cases joinedText heap vs <;> simp [String.append_assoc]

theorem joinedText_pair_eq_none {l r : Value} :
    joinedText heap [l, r] = none ↔ l.Endless heap ∨ r.Endless heap := by
  rw [joinedText_pair, ← concatText_eq_none, ← concatText_eq_none]
  cases l.concatText heap <;> simp

theorem lifted_missing_iff {optional : Bool} {l r : Value} :
    (optional && (l.isNull || r.isNull)) = true ↔ optional = true ∧ (l = .null ∨ r = .null) := by
  rw [Bool.and_eq_true, Bool.or_eq_true, isNull_eq_true, isNull_eq_true]

/-- Where lifting makes no difference, texts are added. -/
theorem appended_eq_string {optional : Bool} {l r : Value}
    (h : ¬ (optional = true ∧ (l = .null ∨ r = .null))) :
    l.appended heap optional r = (joinedText heap [l, r]).map .string :=
  if_neg fun hmissing => h (lifted_missing_iff.mp hmissing)

theorem appended_of_missing {optional : Bool} {l r : Value}
    (h : optional = true ∧ (l = .null ∨ r = .null)) :
    l.appended heap optional r = some .null :=
  if_pos (lifted_missing_iff.mpr h)

theorem appended_eq_null {optional : Bool} {l r : Value} :
    l.appended heap optional r = some .null ↔ optional = true ∧ (l = .null ∨ r = .null) := by
  refine ⟨fun h => ?_, appended_of_missing⟩
  by_contra hpresent
  rw [appended_eq_string hpresent] at h
  cases htext : joinedText heap [l, r] <;> simp [htext] at h

theorem appended_eq_none {optional : Bool} {l r : Value} :
    l.appended heap optional r = none ↔
      ¬ (optional = true ∧ (l = .null ∨ r = .null)) ∧ (l.Endless heap ∨ r.Endless heap) := by
  by_cases h : optional = true ∧ (l = .null ∨ r = .null)
  · rw [appended_of_missing h]
    exact ⟨nofun, fun hpresent => absurd h hpresent.1⟩
  · rw [appended_eq_string h, Option.map_eq_none_iff, joinedText_pair_eq_none]
    exact ⟨fun hloop => ⟨h, hloop⟩, And.right⟩

end Value

theorem BinaryOp.applyLifted_concat (heap : Heap) (optional : Bool) (l r : Value) :
    BinaryOp.concat.applyLifted (if optional then some .null else none) heap l r
      = .ofValue? (l.appended heap optional r) := by
  have happly : Outcome.ofOption (BinaryOp.concat.apply heap l r)
      = .ofValue? ((Value.joinedText heap [l, r]).map .string) := by
    rw [Value.joinedText_pair, BinaryOp.apply]
    cases l.concatText heap with
    | none => rfl
    | some a => cases r.concatText heap <;> rfl
  cases optional with
  | false => exact happly
  | true =>
      rw [if_pos rfl, BinaryOp.applyLifted, Value.appended, Bool.true_and, happly]
      split <;> rfl

/-! ## Folds -/

namespace Operand

variable {heap : Heap} {ρ : Nat → Value}

/-- The value of a sum: operands are added to `v` from left to right. -/
def total (heap : Heap) (ρ : Nat → Value) (v : Value) (ys : List Operand) : Option Value :=
  ys.foldlM (fun v y => v.appended heap y.ty.isNullable (y.value ρ)) v

theorem total_cons (v : Value) (y : Operand) (ys : List Operand) :
    total heap ρ v (y :: ys)
      = (v.appended heap y.ty.isNullable (y.value ρ)).bind fun v => total heap ρ v ys :=
  List.foldlM_cons ..

theorem total_append (v : Value) (ys zs : List Operand) :
    total heap ρ v (ys ++ zs) = (total heap ρ v ys).bind fun v => total heap ρ v zs :=
  List.foldlM_append ..

theorem total_concat (v : Value) (ys : List Operand) (y : Operand) :
    total heap ρ v (ys ++ [y])
      = (total heap ρ v ys).bind fun v => v.appended heap y.ty.isNullable (y.value ρ) := by
  rw [total_append]
  refine congrArg (Option.bind _) (funext fun v => ?_)
  rw [total_cons]
  cases v.appended heap y.ty.isNullable (y.value ρ) <;> rfl

/-- Without a missing operand of optional type, everything is added to a string. -/
theorem total_string {ys : List Operand}
    (h : ∀ y ∈ ys, y.ty.isNullable = true → y.value ρ ≠ .null) (s : String) :
    total heap ρ (.string s) ys
      = (Value.joinedText heap (.string s :: ys.map (value ρ))).map .string := by
  induction ys generalizing s with
  | nil =>
      rw [List.map_nil, Value.joinedText_cons, Value.joinedText_nil]
      exact congrArg (some ∘ Value.string) (String.append_empty).symm
  | cons y ys ih =>
      obtain ⟨hy, hys⟩ := List.forall_mem_cons.mp h
      have hadd : (Value.string s).appended heap y.ty.isNullable (y.value ρ) = _ :=
        Value.appended_eq_string fun ⟨ho, hnull⟩ => hnull.elim Value.noConfusion (hy ho)
      rw [total_cons, hadd, List.map_cons, Value.joinedText_cons_cons _ _ (ys.map (value ρ))]
      cases Value.joinedText heap [.string s, y.value ρ] with
      | none => rfl
      | some a => exact ih hys a

/-- The first addition makes a string of any value. -/
theorem total_eq_joinedText {v : Value} {y : Operand} {ys : List Operand}
    (h : ∀ z ∈ y :: ys, z.ty.isNullable = true → z.value ρ ≠ .null)
    (hv : y.ty.isNullable = true → v ≠ .null) :
    total heap ρ v (y :: ys)
      = (Value.joinedText heap (v :: (y :: ys).map (value ρ))).map .string := by
  obtain ⟨hy, hys⟩ := List.forall_mem_cons.mp h
  have hadd : v.appended heap y.ty.isNullable (y.value ρ) = _ :=
    Value.appended_eq_string fun ⟨ho, hnull⟩ => hnull.elim (hv ho) (hy ho)
  rw [total_cons, hadd, List.map_cons, Value.joinedText_cons_cons _ _ (ys.map (value ρ))]
  cases Value.joinedText heap [v, y.value ρ] with
  | none => rfl
  | some a => exact total_string hys a

/-- What stands before a missing operand of optional type is lost, unless it is without end. -/
theorem total_of_missing {v : Value} {before after : List Operand} {y : Operand}
    (hy : y.ty.isNullable = true) (hnull : y.value ρ = .null) :
    total heap ρ v (before ++ y :: after)
      = (total heap ρ v before).bind fun _ => total heap ρ .null after := by
  rw [total_append]
  refine congrArg (Option.bind _) (funext fun sum => ?_)
  have hlost : sum.appended heap y.ty.isNullable (y.value ρ) = some .null :=
    Value.appended_of_missing ⟨hy, .inr hnull⟩
  rw [total_cons, hlost, Option.bind_some]

/-- A sum does not end if one of its additions asks for the text of a value that leads to a list
containing itself. -/
theorem total_eq_none_iff {v : Value} {ys : List Operand} :
    total heap ρ v ys = none ↔ ∃ before y after sum, ys = before ++ y :: after ∧
      total heap ρ v before = some sum ∧
      ¬ (y.ty.isNullable = true ∧ (sum = .null ∨ y.value ρ = .null)) ∧
      (sum.Endless heap ∨ (y.value ρ).Endless heap) := by
  constructor
  · induction ys using List.reverseRecOn with
    | nil => exact nofun
    | append_singleton ys y ih =>
        intro h
        rw [total_concat] at h
        cases hsum : total heap ρ v ys with
        | none =>
            obtain ⟨before, z, after, sum, rfl, hbefore⟩ := ih hsum
            exact ⟨before, z, after ++ [y], sum, by simp, hbefore⟩
        | some sum =>
            rw [hsum, Option.bind_some] at h
            exact ⟨ys, y, [], sum, rfl, hsum, Value.appended_eq_none.mp h⟩
  · rintro ⟨before, y, after, sum, rfl, hsum, hendless⟩
    rw [total_append, hsum, Option.bind_some, total_cons, Value.appended_eq_none.mpr hendless]
    rfl

/-- A sum that ends is missing if its last operands have optional types, and one of them is missing
or, if there are no others, what they are added to. -/
theorem total_eq_null_iff {v : Value} {ys : List Operand} (h : total heap ρ v ys ≠ none) :
    total heap ρ v ys = some .null ↔ ∃ before run, ys = before ++ run ∧
      (∀ y ∈ run, y.ty.isNullable = true) ∧
      (before = [] ∧ v = .null ∨ ∃ y ∈ run, y.value ρ = .null) := by
  induction ys using List.reverseRecOn with
  | nil =>
      refine ⟨fun h => ⟨[], [], rfl, by simp, .inl ⟨rfl, Option.some.inj h⟩⟩, ?_⟩
      rintro ⟨before, run, hnil, -, hcases⟩
      obtain ⟨-, rfl⟩ := List.append_eq_nil_iff.mp hnil.symm
      obtain ⟨-, rfl⟩ : before = [] ∧ v = .null := by simpa using hcases
      rfl
  | append_singleton ys y ih =>
      obtain ⟨sum, hsum⟩ : ∃ sum, total heap ρ v ys = some sum :=
        Option.ne_none_iff_exists'.mp fun hnone => h (by rw [total_concat, hnone]; rfl)
      have hbefore := ih (by rw [hsum]; nofun)
      rw [hsum, Option.some_inj] at hbefore
      rw [total_concat, hsum, Option.bind_some, Value.appended_eq_null, hbefore]
      constructor
      · rintro ⟨hy, ⟨before, run, rfl, hrun, hcases⟩ | hnull⟩
        · refine ⟨before, run ++ [y], List.append_assoc .., ?_, hcases.imp_right ?_⟩
          · simpa [or_imp, forall_and] using ⟨hrun, hy⟩
          · rintro ⟨z, hz, hnull⟩
            exact ⟨z, List.mem_append_left _ hz, hnull⟩
        · exact ⟨ys, [y], rfl, by simpa using hy, .inr ⟨y, by simp, hnull⟩⟩
      · rintro ⟨before, run, heq, hrun, hcases⟩
        rcases List.eq_nil_or_concat' run with rfl | ⟨run, z, rfl⟩
        · simp_all
        rw [← List.append_assoc] at heq
        obtain ⟨rfl, hsame⟩ := List.append_inj' heq rfl
        obtain rfl : y = z := List.singleton_inj.mp hsame
        have hrun' : ∀ z ∈ run, z.ty.isNullable = true := fun z hz =>
          hrun z (List.mem_append_left _ hz)
        refine ⟨hrun y (by simp), ?_⟩
        rcases hcases with hcases | ⟨z, hz, hnull⟩
        · exact .inl ⟨before, run, rfl, hrun', .inl hcases⟩
        · rcases List.mem_append.mp hz with hz | hz
          · exact .inl ⟨before, run, rfl, hrun', .inr ⟨z, hz, hnull⟩⟩
          · exact .inr (List.mem_singleton.mp hz ▸ hnull)

/-! ## Trees -/

/-- The sum of operands from left to right; every addition has an identity of its own. -/
def sumFrom (left : Tree) (ys : List (Nat × Operand)) : Tree :=
  ys.foldl (fun left y => .binary y.1 .add left y.2.node) left

variable {cx : EmitContext} {scope : EmitScope} {args : List Value} {left : Tree}

theorem ty_add (id : Nat) {right : Tree} (hleft : left.ty = .string) :
    (Node.binary id .add left right).ty = .string := by
  show Node.binaryType .add left.ty _ _ = _
  rw [hleft]
  cases Node.operandsOptional left right <;> rfl

/-- One addition to a string. -/
theorem computes_add (id : Nat) {v : Option Value} {y : Operand} (hty : left.ty = .string)
    (hleft : left.Computes cx scope args heap (.ofValue? v))
    (hright : y.node.Computes cx scope args heap (.ok (y.value ρ))) :
    (Node.binary id .add left y.node).Computes cx scope args heap
      (.ofValue? (v.bind fun v => v.appended heap y.ty.isNullable (y.value ρ))) := by
  have hlifted : Node.operandsOptional left y.node = y.ty.isNullable := by
    rw [Node.operandsOptional, hty, ty_node]
    rfl
  have hform : binaryForm? cx.schema .add (Node.binary id .add left y.node).ty left.ty none
      (Node.operandsOptional left y.node) = some (.strict (.primitive .concat)
        (if y.ty.isNullable then some .null else none)) := by
    rw [ty_add id hty, hlifted, hty]
    cases y.ty.isNullable <;> rfl
  have hnode : (Node.binary id .add left y.node).Computes cx scope args heap
      (Outcome.ofValue? v >>= fun a => (.ok (y.value ρ) : Outcome Value) >>=
        BinaryOp.concat.applyLifted (if y.ty.isNullable then some .null else none) heap a) :=
    .binary id hform hleft hright
  cases v with
  | none => exact hnode
  | some v =>
      rw [Option.bind_some, ← BinaryOp.applyLifted_concat]
      exact hnode

theorem computes_sumFrom {v : Option Value} {ys : List (Nat × Operand)} (hty : left.ty = .string)
    (hleft : left.Computes cx scope args heap (.ofValue? v))
    (hys : ∀ y ∈ ys, y.2.node.Computes cx scope args heap (.ok (y.2.value ρ))) :
    (sumFrom left ys).Computes cx scope args heap
      (.ofValue? (v.bind fun v => total heap ρ v (ys.map Prod.snd))) := by
  induction ys generalizing left v with
  | nil => cases v <;> exact hleft
  | cons y ys ih =>
      obtain ⟨hy, hys⟩ := List.forall_mem_cons.mp hys
      have hrest := ih (ty_add y.1 hty) (computes_add y.1 hty hleft hy) hys
      rw [Option.bind_assoc] at hrest
      exact hrest

theorem within_sumFrom {ys : List (Nat × Operand)} (hleft : ∀ o ∈ left.occurrences, o.within = []) :
    ∀ o ∈ (sumFrom left ys).occurrences, o.within = [] := by
  induction ys generalizing left with
  | nil => exact hleft
  | cons y ys ih =>
      refine ih fun o ho => ?_
      exact (List.mem_append.mp ho).elim (hleft o) within_eq_nil

end Operand

/-! ## Evaluations -/

section Evaluations

variable {e : Environment} {params : List Parameter} {args : List Value} {x : Operand}
  {ys : List (Nat × Operand)}

/-- **Sums that begin with a string.** The sum of at least two operands, the first one of type
`string`, gives a value or does not end. It does not end exactly if one of its additions asks for
the text of a value that leads to a list containing itself. It is the text of all its operands in
their order, a missing one counting as the empty text, if no operand of optional type is missing
after the first one, and none is added to a first one that is missing. Where an operand of optional
type is missing, all that stands before it is lost; and the sum itself, if it ends, is missing
exactly if its last operands have optional types and one of them, or the only operand before them,
is missing. -/
theorem eval_string_sum (hx : x.ty = .string) (hys : ys ≠ [])
    (h : Supplies e.schema params args ((x :: ys.map Prod.snd).flatMap Operand.parameters))
    (i j : Nat) (name : Option String) (w : World) :
    let ρ := argumentOf params args
    let later := ys.map Prod.snd
    let total := Operand.total w.heap ρ
    let result := total (x.value ρ) later
    e.eval (.ofLambda i (.mk j name params (Operand.sumFrom x.node ys))) args w
      = (result.elim (.error .unfinished) .ok, w) ∧
    (result = none ↔ ∃ before y after sum, later = before ++ y :: after ∧
      total (x.value ρ) before = some sum ∧
      ¬ (y.ty.isNullable = true ∧ (sum = .null ∨ y.value ρ = .null)) ∧
      (sum.Endless w.heap ∨ (y.value ρ).Endless w.heap)) ∧
    ((∀ y ∈ later, y.ty.isNullable = true → y.value ρ ≠ .null) →
      (∀ y ∈ later.head?, y.ty.isNullable = true → x.value ρ ≠ .null) →
      result = (Value.joinedText w.heap ((x :: later).map (Operand.value ρ))).map .string) ∧
    (∀ before y after, later = before ++ y :: after → y.ty.isNullable = true → y.value ρ = .null →
      result = (total (x.value ρ) before).bind fun _ => total .null after) ∧
    (result ≠ none → (result = some .null ↔ ∃ before run, later = before ++ run ∧
      (∀ y ∈ run, y.ty.isNullable = true) ∧
      (before = [] ∧ x.value ρ = .null ∨ ∃ y ∈ run, y.value ρ = .null))) := by
  intro ρ later total result
  have hgives : (Operand.sumFrom x.node ys).Gives e.schema args ρ
      ((x :: later).flatMap Operand.parameters) w.heap (.ofValue? result) := by
    refine ⟨Operand.within_sumFrom fun _ => Operand.within_eq_nil, fun captures scope hreads => ?_⟩
    have hoperand {y : Operand} (hy : y ∈ x :: later) :
        y.node.Computes ⟨e.schema, captures⟩ scope args w.heap (.ok (y.value ρ)) :=
      Operand.computes hreads hy
    have hfirst : x.node.Computes ⟨e.schema, captures⟩ scope args w.heap
        (.ofValue? (some (x.value ρ))) := hoperand (by simp)
    refine (Operand.computes_sumFrom (x.ty_node.trans hx) hfirst ?_).evaluatesTo
    exact fun y hy => hoperand (List.mem_cons_of_mem x (List.mem_map_of_mem hy))
  refine ⟨?_, Operand.total_eq_none_iff, fun hpresent hfirst => ?_, ?_, Operand.total_eq_null_iff⟩
  · rw [h.eval hgives i j name]
    cases result <;> rfl
  · obtain ⟨y, rest, hlater⟩ : ∃ y rest, later = y :: rest :=
      List.exists_cons_of_ne_nil (mt List.map_eq_nil_iff.mp hys)
    rw [hlater] at hpresent hfirst
    show Operand.total w.heap ρ (x.value ρ) later = _
    rw [hlater]
    exact Operand.total_eq_joinedText hpresent (hfirst y rfl)
  · intro before y after hlater hy hnull
    show Operand.total w.heap ρ (x.value ρ) later = _
    rw [hlater]
    exact Operand.total_of_missing hy hnull

/-- A sum with an optional operand and a missing reference. As long as the optional operand is
there, all texts are joined; once it is missing, the text before it is lost. -/
theorem eval_string_sum_optional :
    let e : Environment := ⟨.empty, fun _ _ heap _ => .done (.ok .unit) heap, 1000, 0⟩
    let p : Parameter := ⟨0, "p", .nullable .bool⟩
    let ys : List (Nat × Operand) := [(2, .parameter 1 p), (4, .constant 3 .null .object),
      (6, .constant 5 (.string "!") .string)]
    let eval (v : Value) := e.eval (.ofLambda 9 (.mk 8 none [p]
      (Operand.sumFrom (.constant 7 (.string "ready: ") .string) ys))) [v] {}
    eval (.bool true) = (.ok (.string "ready: true!"), {}) ∧
      eval .null = (.ok (.string "!"), {}) := by
  intro e p ys eval
  have hsum {v : Value} (hv : v.conformsTo .empty p.ty = true) :=
    eval_string_sum (e := e) (x := .constant 7 (.string "ready: ") .string) rfl
      (show ys ≠ [] from List.cons_ne_nil _ _) (Operand.given_parameter hv 1).supplies 9 8 none {}
  constructor
  · obtain ⟨heval, -, hall, -⟩ := hsum (v := .bool true) rfl
    have hpresent : ∀ y ∈ ys.map Prod.snd, y.ty.isNullable = true →
        y.value (argumentOf [p] [.bool true]) ≠ .null := by
      simp [ys, p, Operand.ty, Operand.value, Ty.isNullable, argumentOf, lastIndex?]
    rw [hall hpresent fun _ _ _ => Value.noConfusion] at heval
    exact heval
  · obtain ⟨heval, -, -, hlost, -⟩ := hsum (v := .null) rfl
    rw [hlost [] _ _ rfl rfl rfl] at heval
    exact heval

/-- The sum of `"a"`, a missing operand of type `i8?` and `"b"` is `"b"` and not `"ab"`; without the
last operand it is missing. If the missing operand has type `object`, nothing is lost. -/
theorem string_sum_loses_text :
    let e : Environment := ⟨.empty, fun _ _ heap _ => .done (.ok .unit) heap, 1000, 0⟩
    let eval (ty : Ty) (more : List (Nat × Operand)) := e.eval (.ofLambda 9 (.mk 8 none []
      (Operand.sumFrom (.constant 0 (.string "a") .string)
        ((2, .constant 1 .null ty) :: more)))) [] {}
    let b : Nat × Operand := (4, .constant 3 (.string "b") .string)
    eval (.nullable (.int .i8)) [b] = (.ok (.string "b"), {}) ∧
      eval (.nullable (.int .i8)) [] = (.ok .null, {}) ∧
      Value.joinedText {} [.string "a", .null, .string "b"] = some "ab" ∧
      eval .object [b] = (.ok (.string "ab"), {}) ∧ eval .object [] = (.ok (.string "a"), {}) := by
  intro e eval b
  exact ⟨rfl, rfl, rfl, rfl, rfl⟩

end Evaluations

end ExprTree
