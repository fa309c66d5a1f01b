import Mathlib.Data.Finset.Card
import Mathlib.Data.Finset.Prod
import Mathlib.Logic.Relation
import ExprTree.Operator

set_option autoImplicit false

/-! # Values without a text

A list that contains itself has no text: writing it down never ends. The definitions follow lists
down to a depth that depends on how many lists there are. Here this depth is shown to be enough.
A value has no text exactly if one of the lists in it leads to a list that contains itself
(`Value.text_eq_none_iff`), so an operator has no result only if some list contains itself
(`BinaryOp.apply_eq_none`). A comparison that is not decided at its depth is not decided at any
(`Value.equal_eq_none`).
-/

namespace ExprTree

/-! ## Long ways in finite relations -/

section Descents

variable {α : Type}

/-- From `a` a way of `n` steps leads along the relation. -/
def Descends (R : α → α → Prop) : (n : Nat) → (a : α) → Prop
  | 0, _ => True
  | n + 1, a => ∃ b, R a b ∧ Descends R n b

/-- From `a` a way leads to something that the relation leads back to. -/
def ReachesLoop (R : α → α → Prop) (a : α) : Prop :=
  ∃ b, Relation.ReflTransGen R a b ∧ Relation.TransGen R b b

variable {R : α → α → Prop}

theorem ReachesLoop.step {a : α} (h : ReachesLoop R a) : ∃ b, R a b ∧ ReachesLoop R b := by
  obtain ⟨c, hac, hloop⟩ := h
  rcases Relation.ReflTransGen.cases_head hac with rfl | ⟨b, hab, hbc⟩
  · obtain ⟨b, hab, hba⟩ := Relation.TransGen.head'_iff.mp hloop
    exact ⟨b, hab, a, hba, hloop⟩
  · exact ⟨b, hab, c, hbc, hloop⟩

theorem ReachesLoop.descends {a : α} (h : ReachesLoop R a) (n : Nat) : Descends R n a := by
  induction n generalizing a with
  | zero => trivial
  | succ n ih =>
      obtain ⟨b, hab, hb⟩ := h.step
      exact ⟨b, hab, ih hb⟩

/-- The places along a way. -/
theorem Descends.exists_way {n : Nat} {a : α} (h : Descends R n a) :
    ∃ p : Nat → α, p 0 = a ∧ ∀ k < n, R (p k) (p (k + 1)) := by
  induction n generalizing a with
  | zero => exact ⟨fun _ => a, rfl, nofun⟩
  | succ n ih =>
      obtain ⟨b, hab, hb⟩ := h
      obtain ⟨p, rfl, hp⟩ := ih hb
      refine ⟨fun k => k.casesOn a p, rfl, fun k hk => ?_⟩
      cases k with
      | zero => exact hab
      | succ k => exact hp k (Nat.lt_of_succ_lt_succ hk)

theorem reflTransGen_of_way {p : Nat → α} {n : Nat} (hp : ∀ k < n, R (p k) (p (k + 1))) {i j : Nat}
    (hij : i ≤ j) (hj : j ≤ n) : Relation.ReflTransGen R (p i) (p j) := by
  induction j, hij using Nat.le_induction with
  | base => exact .refl
  | succ j _ ih => exact (ih (Nat.le_of_succ_le hj)).tail (hp j hj)

/-- **A way that is longer than there are places to start from meets one of them twice.** -/
theorem Descends.reachesLoop {S : Finset α} (hS : ∀ a b, R a b → a ∈ S) {n : Nat}
    (hn : S.card < n) {a : α} (h : Descends R n a) : ReachesLoop R a := by
  obtain ⟨p, rfl, hp⟩ := h.exists_way
  have hcard : S.card < (Finset.range n).card := by rwa [Finset.card_range]
  have hmaps : ∀ k ∈ Finset.range n, p k ∈ S := fun k hk => hS _ _ (hp k (Finset.mem_range.mp hk))
  obtain ⟨x, hx, y, hy, hne, heq⟩ := Finset.exists_ne_map_eq_of_card_lt_of_maps_to hcard hmaps
  -- the first of the two meetings is where the loop begins
  obtain ⟨i, j, hij, hj, heq⟩ : ∃ i j, i < j ∧ j < n ∧ p i = p j := by
    rcases Nat.lt_or_gt_of_ne hne with h | h
    · exact ⟨x, y, h, Finset.mem_range.mp hy, heq⟩
    · exact ⟨y, x, h, Finset.mem_range.mp hx, heq.symm⟩
  have hround : Relation.ReflTransGen R (p (i + 1)) (p j) :=
    reflTransGen_of_way hp hij (Nat.le_of_lt hj)
  refine ⟨p i, reflTransGen_of_way hp (Nat.zero_le i) (Nat.le_of_lt (hij.trans hj)), ?_⟩
  exact .head' (hp i (hij.trans hj)) (heq ▸ hround)

end Descents

/-! ## Lists inside one another -/

namespace Value

mutual

/-- The lists that stand in a value, but not in those lists. -/
def lists : Value → List Nat
  | .array _ items => listsAll items
  | .list id => [id]
  | _ => []

/-- The lists that stand in several values. -/
def listsAll : List Value → List Nat
  | [] => []
  | v :: vs => lists v ++ listsAll vs

end

end Value

/-- The list `b` is in the list `a`, perhaps inside arrays. -/
def Heap.Contains (heap : Heap) (a b : Nat) : Prop := b ∈ Value.listsAll (heap.listItems a)

/-- Some list contains itself, directly or inside other lists. -/
def Heap.Looping (heap : Heap) : Prop := ∃ a, Relation.TransGen heap.Contains a a

/-- A list that is not there contains nothing. -/
theorem Heap.Contains.lt_size {heap : Heap} {a b : Nat} (h : heap.Contains a b) :
    a < heap.lists.size := by
  refine Nat.lt_of_not_le fun hle => ?_
  have hempty : heap.listItems a = [] := by
    simp [Heap.listItems, Array.getElem?_eq_none hle]
  rw [Contains, hempty] at h
  cases h

theorem Heap.looping_of_descends {heap : Heap} {n a : Nat} (hn : heap.lists.size < n)
    (h : Descends heap.Contains n a) : ReachesLoop heap.Contains a :=
  h.reachesLoop (fun _ _ hc => Finset.mem_range.mpr hc.lt_size) (by rwa [Finset.card_range])

/-! ## Texts -/

namespace Value

variable {heap : Heap}

mutual

theorem textWith_eq_none {list : Nat → Option String} : (v : Value) →
    (v.textWith list = none ↔ ∃ a ∈ v.lists, list a = none)
  | .array id items => by
      rw [textWith, Option.map_eq_none_iff, textsWith_eq_none items, lists]
  | .list id => by simp [textWith, lists]
  | .null | .unit | .bool _ | .char _ | .int .. | .f32 _ | .f64 _ | .string _ | .object ..
  | .function _ | .expression _ => by simp [textWith, lists]

theorem textsWith_eq_none {list : Nat → Option String} : (vs : List Value) →
    (textsWith list vs = none ↔ ∃ a ∈ listsAll vs, list a = none)
  | [] => by simp [textsWith, listsAll]
  | v :: vs => by
      have hv : v.textWith list = none ↔ _ := textWith_eq_none v
      have hvs : textsWith list vs = none ↔ _ := textsWith_eq_none vs
      simp only [listsAll, List.mem_append, or_and_right, exists_or, ← hv, ← hvs, textsWith]
      cases textWith list v <;> cases textsWith list vs <;> simp

end

/-- A list has no text at a depth exactly if a way of this length leads through lists. -/
theorem listText_eq_none {depth a : Nat} :
    listText heap depth a = none ↔ Descends heap.Contains depth a := by
  induction depth generalizing a with
  | zero => exact ⟨fun _ => trivial, fun _ => rfl⟩
  | succ depth ih =>
      rw [listText, Option.map_eq_none_iff, textsWith_eq_none]
      simp only [ih]
      rfl

/-- **A value has no text exactly if it leads to a list that contains itself.** So a greater depth
would give no more texts. -/
theorem text_eq_none_iff {v : Value} :
    v.text heap = none ↔ ∃ a ∈ v.lists, ReachesLoop heap.Contains a := by
  rw [text, textWith_eq_none]
  refine exists_congr fun a => and_congr_right fun _ => ?_
  rw [listText_eq_none]
  exact ⟨Heap.looping_of_descends (Nat.lt_succ_self _), fun h => h.descends _⟩

theorem looping_of_text {v : Value} (h : v.text heap = none) : heap.Looping := by
  obtain ⟨_, -, b, -, hloop⟩ := text_eq_none_iff.mp h
  exact ⟨b, hloop⟩

end Value

/-- **An operator has no result only if some list contains itself.** -/
theorem BinaryOp.apply_eq_none {heap : Heap} {op : BinaryOp} {l r : Value}
    (h : op.apply heap l r = none) : heap.Looping := by
  have htext : ∀ v : Value, v.concatText heap = none → heap.Looping := by
    intro v hv
    cases v with
    | null => cases hv
    | _ => exact Value.looping_of_text hv
  cases op with
  | concat =>
      simp only [apply, bind, Option.bind_eq_none_iff] at h
      cases hl : l.concatText heap with
      | none => exact htext l hl
      | some a =>
          cases hr : r.concatText heap with
          | none => exact htext r hr
          | some b => cases h a hl b hr
  | _ => cases h

/-! ## Comparisons -/

/-- A decreasing sequence of finite sets comes to a stop. -/
theorem exists_stop {α : Type} {S : Nat → Finset α} (hsub : ∀ d, S (d + 1) ⊆ S d) {n : Nat}
    (hn : (S 0).card ≤ n) : S n = ∅ ∨ ∃ k < n, S (k + 1) = S k := by
  induction n generalizing S with
  | zero => exact .inl (Finset.card_eq_zero.mp (Nat.le_zero.mp hn))
  | succ n ih =>
      by_cases heq : S 1 = S 0
      · exact .inr ⟨0, Nat.succ_pos n, heq⟩
      · have hlt : (S 1).card < (S 0).card :=
          Finset.card_lt_card ((hsub 0).ssubset_of_ne heq)
        have hle : (S (0 + 1)).card ≤ n := Nat.le_of_lt_succ (Nat.lt_of_lt_of_le hlt hn)
        rcases ih (S := fun d => S (d + 1)) (fun d => hsub (d + 1)) hle with h | ⟨k, hk, h⟩
        · exact .inl h
        · exact .inr ⟨k + 1, Nat.succ_lt_succ hk, h⟩

namespace Value

variable {heap : Heap}

section Steps

variable {lists lists' : Nat → Nat → Option Bool}

mutual

/-- A comparison is undecided only where one of two lists is. -/
theorem equalWith_eq_none : (u v : Value) → u.equalWith lists v = none →
    ∃ a ∈ u.lists, ∃ b ∈ v.lists, lists a b = none
  | .array _ us, v, h => by
      cases v with
      | array _ vs =>
          rw [equalWith] at h
          split at h
          · exact equalAllWith_eq_none us vs h
          · cases h
      | _ => simp [equalWith] at h
  | .list a, v, h => by
      cases v with
      | list b => exact ⟨a, by simp [Value.lists], b, by simp [Value.lists], h⟩
      | _ => simp [equalWith] at h
  | .null, _, h | .unit, _, h | .bool _, _, h | .char _, _, h | .int .., _, h | .f32 _, _, h
  | .f64 _, _, h | .string _, _, h | .object .., _, h | .function _, _, h
  | .expression _, _, h => by simp [equalWith] at h

theorem equalAllWith_eq_none : (us vs : List Value) → equalAllWith lists us vs = none →
    ∃ a ∈ listsAll us, ∃ b ∈ listsAll vs, lists a b = none
  | [], _, h => by simp [equalAllWith] at h
  | _ :: _, [], h => by simp [equalAllWith] at h
  | u :: us, v :: vs, h => by
      simp only [listsAll, List.mem_append]
      cases hu : u.equalWith lists v with
      | none =>
          obtain ⟨a, ha, b, hb, hab⟩ := equalWith_eq_none u v hu
          exact ⟨a, .inl ha, b, .inl hb, hab⟩
      | some x =>
          cases x with
          | false => simp [equalAllWith, hu] at h
          | true =>
              have hrest : equalAllWith lists us vs = none := by simpa [equalAllWith, hu] using h
              obtain ⟨a, ha, b, hb, hab⟩ := equalAllWith_eq_none us vs hrest
              exact ⟨a, .inr ha, b, .inr hb, hab⟩

end

mutual

/-- What is decided stays decided if more lists are. -/
theorem equalWith_mono (hlists : ∀ a b x, lists a b = some x → lists' a b = some x) :
    (u v : Value) → (x : Bool) → u.equalWith lists v = some x → u.equalWith lists' v = some x
  | .array _ us, v, x, h => by
      cases v with
      | array _ vs =>
          rw [equalWith] at h ⊢
          split at h
          case isTrue hlen => rw [if_pos hlen, equalAllWith_mono hlists us vs x h]
          case isFalse hlen => rw [if_neg hlen, h]
      | _ => simpa [equalWith] using h
  | .list a, v, x, h => by
      cases v with
      | list b => exact hlists a b x h
      | _ => simpa [equalWith] using h
  | .null, _, _, h | .unit, _, _, h | .bool _, _, _, h | .char _, _, _, h | .int .., _, _, h
  | .f32 _, _, _, h | .f64 _, _, _, h | .string _, _, _, h | .object .., _, _, h
  | .function _, _, _, h | .expression _, _, _, h => by simpa [equalWith] using h

theorem equalAllWith_mono (hlists : ∀ a b x, lists a b = some x → lists' a b = some x) :
    (us vs : List Value) → (x : Bool) → equalAllWith lists us vs = some x →
    equalAllWith lists' us vs = some x
  | [], _, _, h => by simpa [equalAllWith] using h
  | _ :: _, [], _, h => by simpa [equalAllWith] using h
  | u :: us, v :: vs, x, h => by
      cases hu : u.equalWith lists v with
      | none => simp [equalAllWith, hu] at h
      | some y =>
          have hu' := equalWith_mono hlists u v y hu
          cases y with
          | false => simpa [equalAllWith, hu, hu'] using h
          | true =>
              have hrest : equalAllWith lists us vs = some x := by simpa [equalAllWith, hu] using h
              simpa [equalAllWith, hu'] using equalAllWith_mono hlists us vs x hrest

end

end Steps

/-- Two lists that are not decided hold two such lists. -/
theorem exists_of_equalLists {depth a b : Nat} (h : equalLists heap (depth + 1) a b = none) :
    ∃ a' b', heap.Contains a a' ∧ heap.Contains b b' ∧ equalLists heap depth a' b' = none := by
  simp only [equalLists] at h
  split at h
  · cases h
  split at h
  · obtain ⟨a', ha, b', hb, hab⟩ := equalAllWith_eq_none _ _ h
    exact ⟨a', b', ha, hb, hab⟩
  · cases h

theorem descends_of_equalLists {depth a b : Nat} (h : equalLists heap depth a b = none) :
    Descends heap.Contains depth a := by
  induction depth generalizing a b with
  | zero => trivial
  | succ depth ih =>
      obtain ⟨a', b', ha, -, hab⟩ := exists_of_equalLists h
      exact ⟨a', ha, ih hab⟩

theorem equalLists_succ {depth a b : Nat} {x : Bool} (h : equalLists heap depth a b = some x) :
    equalLists heap (depth + 1) a b = some x := by
  induction depth generalizing a b x with
  | zero => cases h
  | succ depth ih =>
      rw [equalLists] at h ⊢
      split at h
      case isTrue heq => rw [if_pos heq, h]
      case isFalse hne =>
        rw [if_neg hne]
        split at h
        case isTrue hlen => rw [if_pos hlen, equalAllWith_mono (fun _ _ _ => ih) _ _ x h]
        case isFalse hlen => rw [if_neg hlen, h]

theorem equalLists_mono {depth depth' a b : Nat} {x : Bool} (hle : depth ≤ depth')
    (h : equalLists heap depth a b = some x) : equalLists heap depth' a b = some x := by
  induction depth', hle using Nat.le_induction with
  | base => exact h
  | succ depth' _ ih => exact equalLists_succ ih

/-- The pairs of lists that are not decided at a depth. -/
def undecided (heap : Heap) (depth : Nat) : Finset (Nat × Nat) :=
  (Finset.range heap.lists.size ×ˢ Finset.range heap.lists.size).filter fun p =>
    equalLists heap (depth + 1) p.1 p.2 = none

theorem mem_undecided {depth a b : Nat} :
    (a, b) ∈ undecided heap depth ↔ equalLists heap (depth + 1) a b = none := by
  rw [undecided, Finset.mem_filter, Finset.mem_product]
  refine ⟨And.right, fun h => ⟨?_, h⟩⟩
  obtain ⟨_, _, ha, hb, -⟩ := exists_of_equalLists h
  exact ⟨Finset.mem_range.mpr ha.lt_size, Finset.mem_range.mpr hb.lt_size⟩

/-- If one more step decides nothing, no number of steps does. -/
theorem equalLists_of_stop {k : Nat} (h : undecided heap (k + 1) = undecided heap k) {depth : Nat}
    (hle : k + 1 ≤ depth) : equalLists heap depth = equalLists heap (k + 1) := by
  have hstep : equalLists heap (k + 2) = equalLists heap (k + 1) := by
    funext a b
    cases hk : equalLists heap (k + 1) a b with
    | some x => exact equalLists_succ hk
    | none =>
        rw [← mem_undecided, ← h] at hk
        exact mem_undecided.mp hk
  induction depth, hle using Nat.le_induction with
  | base => rfl
  | succ depth _ ih =>
      funext a b
      calc equalLists heap (depth + 1) a b
          = equalLists heap (k + 2) a b := by simp only [equalLists, ih]
        _ = equalLists heap (k + 1) a b := by rw [hstep]

/-- **The depth of comparisons suffices.** What is not decided there is not decided at any depth:
there are only so many pairs of lists that one more step could decide. -/
theorem equalLists_eq_none {a b : Nat}
    (h : equalLists heap (heap.lists.size * heap.lists.size + 1) a b = none) (depth : Nat) :
    equalLists heap depth a b = none := by
  have hsub : ∀ d, undecided heap (d + 1) ⊆ undecided heap d := by
    rintro d ⟨a, b⟩ hab
    rw [mem_undecided] at hab ⊢
    cases hd : equalLists heap (d + 1) a b with
    | none => rfl
    | some x => exact absurd (equalLists_succ hd) (by rw [hab]; exact nofun)
  have hcard : (undecided heap 0).card ≤ heap.lists.size * heap.lists.size := by
    refine (Finset.card_filter_le _ _).trans ?_
    rw [Finset.card_product, Finset.card_range]
  cases hd : equalLists heap depth a b with
  | none => rfl
  | some x =>
      have hne : ∀ d, depth ≤ d → equalLists heap d a b ≠ none := fun d hle => by
        rw [equalLists_mono hle hd]
        exact nofun
      rcases exists_stop hsub hcard with hempty | ⟨k, hk, hstop⟩
      · have hmem := mem_undecided.mpr h
        rw [hempty] at hmem
        exact absurd hmem (Finset.notMem_empty _)
      · -- both depths come after the stop
        have hfar := equalLists_of_stop hstop (Nat.le_max_right depth (k + 1))
        rw [equalLists_of_stop hstop (by omega)] at h
        exact absurd (hfar ▸ h) (hne _ (Nat.le_max_left depth (k + 1)))

/-- A comparison of values that is not decided is not decided at any depth, and some list contains
itself. -/
theorem equal_eq_none {u v : Value} (h : u.equal heap v = none) :
    (∀ depth, u.equalWith (equalLists heap depth) v = none) ∧ heap.Looping := by
  constructor
  · intro depth
    cases hd : u.equalWith (equalLists heap depth) v with
    | none => rfl
    | some x =>
        have hdecided : ∀ a b y, equalLists heap depth a b = some y →
            equalLists heap (heap.lists.size * heap.lists.size + 1) a b = some y := by
          intro a b y hab
          cases hfull : equalLists heap (heap.lists.size * heap.lists.size + 1) a b with
          | none => cases (equalLists_eq_none hfull depth).symm.trans hab
          | some z =>
              have hz := equalLists_mono (Nat.le_max_left _ depth) hfull
              rw [equalLists_mono (Nat.le_max_right _ depth) hab] at hz
              exact hz.symm
        exact absurd (equalWith_mono hdecided u v x hd) (by rw [← equal, h]; exact nofun)
  · obtain ⟨a, -, b, -, hab⟩ := equalWith_eq_none u v h
    obtain ⟨c, -, hloop⟩ := Heap.looping_of_descends (Nat.lt_succ_of_le (Nat.le_mul_self _))
      (descends_of_equalLists hab)
    exact ⟨c, hloop⟩

end Value

end ExprTree
