import Mathlib.Tactic.Choose
import ExprTree.Proofs.Captures.Exact
import ExprTree.Proofs.Substitution.Places

set_option autoImplicit false

/-! # Exactly the parameters that occur free

A use of a parameter is free if no lambda around it declares the parameter, whether that lambda is
a node of its own or converts an operand, and whether there are quotes in between. The search for
free parameters decides this by counting declarations while it walks over the tree.

* Along a walk it finds the parameters of the free uses, each where it is first met
  (`Node.freeParameters_eq`).
* The uses that a walk meets are those at the places of the tree, in the order of these places
  (`Node.exists_usesInOrder`).

`freeParameters_exact` puts the two together: what the search finds is said in terms of places, and
of what stands between a place and the root.
-/

namespace ExprTree

variable {α : Type}

/-! ## Free uses along a walk -/

namespace Occurrence

/-- No lambda around the place declares the parameter. -/
def IsFree (o : Occurrence) : Prop := ∀ e ∈ o.within, e.declaring? o.parameter = none

instance (o : Occurrence) : Decidable o.IsFree :=
  inferInstanceAs (Decidable (∀ e ∈ o.within, _))

/-- The parameter of a free use. -/
def free? (o : Occurrence) : Option Parameter := if o.IsFree then some o.parameter else none

theorem free?_eq_some {o : Occurrence} {p : Parameter} :
    o.free? = some p ↔ o.IsFree ∧ o.parameter = p := by
  simp [free?]

end Occurrence

namespace FreeScan

/-- The search takes a use for bound exactly if a lambda around it declares the parameter. -/
theorem Sees.isFree_iff {s : FreeScan} {inner : List Enclosure} (h : s.Sees inner)
    (p : Parameter) : Occurrence.IsFree ⟨p, inner⟩ ↔ s.isDeclared p = false := by
  rw [h p, List.any_eq_false]
  simp [Occurrence.IsFree]

/-- One use: the parameter is kept if the use is free, unless it is known already. -/
theorem firstOfEach_mention {s : FreeScan} {inner : List Enclosure} (h : s.Sees inner)
    (p : Parameter) :
    firstOfEach (s.step (.mention p : Event α)).free
      = firstOfEach (s.free ++ (Occurrence.free? ⟨p, inner⟩).toList) := by
  have hfree := h.isFree_iff p
  cases hd : s.isDeclared p with
  | true =>
      have hbound : ¬Occurrence.IsFree ⟨p, inner⟩ := by simp [hfree, hd]
      simp [step, hd, Occurrence.free?, hbound]
  | false =>
      simp only [step, hd, Bool.false_or, Occurrence.free?, hfree.mpr hd, ↓reduceIte,
        Option.toList_some]
      split
      case isTrue hk =>
        have hknown : ∀ q ∈ [p], q.id ∈ s.free.map (·.id) := by
          simpa [isKnown] using hk
        exact (firstOfEach_append_of_subset hknown).symm
      case isFalse => rfl

/-- The search keeps the first of the free uses of each parameter. The induction is on the nesting
of the walk: after each part the declarations are those of the surroundings again. -/
theorem firstOfEach_foldl {es : List (Event α)} (hb : Balanced es) {s : FreeScan}
    {inner : List Enclosure} (h : s.Sees inner) :
    firstOfEach (es.foldl step s).free
      = firstOfEach (s.free ++ (occurrencesIn inner es).filterMap Occurrence.free?) := by
  induction hb generalizing s inner with
  | nil => simp [occurrencesIn]
  | node n _ ih => exact ih h
  | @mention p es _ ih =>
      have hstep : (s.step (.mention p : Event α)).Sees inner :=
        h.congr (declared_foldl (.mention p .nil : Balanced [(.mention p : Event α)]) s)
      have hsplit : (occurrencesIn inner (.mention p :: es)).filterMap Occurrence.free?
          = (Occurrence.free? ⟨p, inner⟩).toList
            ++ (occurrencesIn inner es).filterMap Occurrence.free? := by
        rw [occurrencesIn, List.filterMap_cons]
        cases Occurrence.free? ⟨p, inner⟩ <;> rfl
      rw [List.foldl_cons, ih hstep, hsplit, ← List.append_assoc]
      exact firstOfEach_append_congr (firstOfEach_mention h p) _
  | @lambda l es rest hes _ ihe ihr =>
      have hsplit : occurrencesIn inner (.enter l :: (es ++ .leave l :: rest))
          = occurrencesIn (.lambda l.id l.params :: inner) es ++ occurrencesIn inner rest :=
        occurrencesIn_append hes (.lambda l.id l.params :: inner) (.leave l :: rest)
      rw [List.foldl_cons, List.foldl_append, List.foldl_cons, ihr (h.leave l hes), hsplit,
        List.filterMap_append, ← List.append_assoc]
      exact firstOfEach_append_congr (ihe (h.enter l)) _
  | @quote es rest hes _ ihe ihr =>
      have hsplit : occurrencesIn inner (.enterQuote :: (es ++ .leaveQuote :: rest))
          = occurrencesIn (.quote :: inner) es ++ occurrencesIn inner rest :=
        occurrencesIn_append hes (.quote :: inner) (.leaveQuote :: rest)
      have hrest := ihr (h.congr (declared_foldl hes s))
      rw [List.foldl_cons, List.foldl_append, List.foldl_cons, hsplit, List.filterMap_append,
        ← List.append_assoc]
      exact hrest.trans (firstOfEach_append_congr (ihe h.quote) _)

/-- No parameter is kept twice. -/
theorem nodup_free_foldl (es : List (Event α)) {s : FreeScan} (h : (s.free.map (·.id)).Nodup) :
    ((es.foldl step s).free.map (·.id)).Nodup := by
  induction es generalizing s with
  | nil => exact h
  | cons e es ih =>
      refine ih ?_
      cases e with
      | mention p =>
          simp only [step]
          split
          case isTrue => exact h
          case isFalse hnew =>
            have hp : p.id ∉ s.free.map (·.id) := by
              simp only [Bool.or_eq_true, not_or, isKnown] at hnew
              simpa using hnew.2
            rw [List.map_append, List.map_singleton, List.nodup_append]
            refine ⟨h, List.nodup_singleton _, ?_⟩
            rintro x hx y hy rfl
            exact hp (List.mem_singleton.mp hy ▸ hx)
      | _ => exact h

end FreeScan

theorem Node.freeParameters_eq (n : Node α) :
    n.freeParameters = firstOfEach (n.occurrences.filterMap Occurrence.free?) := by
  have hnodup : (n.freeParameters.map (·.id)).Nodup := FreeScan.nodup_free_foldl n.walk .nil
  have hsees : FreeScan.Sees {} [] := fun _ => rfl
  rw [← firstOfEach_of_nodup hnodup, ← n.occurrencesIn_nil]
  exact FreeScan.firstOfEach_foldl n.walk_balanced hsees

/-! ## Places -/

/-- The parameter that a node itself reads or assigns. -/
def Payload.used? : Payload α → Option Parameter
  | .parameter p | .assign p _ => some p
  | _ => none

/-- What is entered on the way from a node to the one at that position below it: a quote, or the
lambda whose body that is. The conversion of an operand comes after the two operands. -/
def Payload.border (kind : Kind) : Payload α → Nat → List Enclosure
  | .unary .., _ => if kind = .quote then [.quote] else []
  | .lambda l, _ => [.lambda l.id l.params]
  | .binary _ _ _ _ _ (some c), 2 => [.lambda c.id c.params]
  | _, _ => []

/-- The use of a parameter at the end of a way down, with all that is entered on the way. -/
def Node.occurrenceAt? : List Nat → Node α → Option Occurrence
  | [], n => n.payload.used?.map (⟨·, []⟩)
  | i :: path, n =>
      (n.payload.children[i]?.bind (Node.occurrenceAt? path)).map
        (.under (n.payload.border n.kind i))

/-- A parameter is used at that place, and no lambda of the tree around it declares it. -/
def Node.FreeAt (n : Node α) (path : List Nat) (p : Parameter) : Prop :=
  ∃ o, n.occurrenceAt? path = some o ∧ o.IsFree ∧ o.parameter = p

/-- The order of places: a node comes before those below it, and these from left to right. -/
def Precedes (path path' : List Nat) : Prop := List.Lex (· < ·) path path'

/-- The first place where the parameter is free. -/
def Node.FirstFreeAt (n : Node α) (path : List Nat) (p : Parameter) : Prop :=
  n.FreeAt path p ∧
    ∀ path' q, n.FreeAt path' q → q.id = p.id → path' = path ∨ Precedes path path'

/-! ## A tree and the nodes below it -/

/-- A node has the property if all nodes right below it have it. -/
def Node.Ascends (P : Node α → Prop) : Prop :=
  ∀ n : Node α, (∀ c ∈ n.payload.children, P c) → P n

/-! A property that ascends holds of every node. -/

namespace Node.Ascends

variable {P : Node α → Prop}

mutual

theorem node (h : Ascends P) : (n : Node α) → P n
  | .mk _ _ _ payload => h _ (h.children payload)

theorem children (h : Ascends P) : (p : Payload α) → ∀ c ∈ p.children, P c
  | .constant _ => by simp [Payload.children]
  | .parameter _ => by simp [Payload.children]
  | .unary x _ _ => by simpa [Payload.children] using h.node x
  | .binary l r _ _ _ none => by
      have hl := h.node l
      have hr := h.node r
      simpa [Payload.children] using ⟨hl, hr⟩
  | .binary l r _ _ _ (some (.mk _ _ _ body)) => by
      have hl := h.node l
      have hr := h.node r
      have hbody := h.node body
      simpa [Payload.children, Lambda.body] using ⟨hl, hr, hbody⟩
  | .conditional t a b => by
      have ht := h.node t
      have ha := h.node a
      have hb := h.node b
      simpa [Payload.children] using ⟨ht, ha, hb⟩
  | .memberAccess none _ => by simp [Payload.children]
  | .memberAccess (some x) _ => by simpa [Payload.children] using h.node x
  | .call none _ args => h.nodes args
  | .call (some x) _ args => List.forall_mem_cons.mpr ⟨h.node x, h.nodes args⟩
  | .new _ args => h.nodes args
  | .newArray items => h.nodes items
  | .listInit x inits => List.forall_mem_cons.mpr ⟨h.node x, h.inits inits⟩
  | .memberInit x bindings => List.forall_mem_cons.mpr ⟨h.node x, h.bindings bindings⟩
  | .lambda (.mk _ _ _ body) => by simpa [Payload.children, Lambda.body] using h.node body
  | .invoke x args => List.forall_mem_cons.mpr ⟨h.node x, h.nodes args⟩
  | .typeIs x _ => by simpa [Payload.children] using h.node x
  | .assign _ x => by simpa [Payload.children] using h.node x
  | .block items => h.nodes items

theorem nodes (h : Ascends P) : (ns : List (Node α)) → ∀ c ∈ ns, P c
  | [] => by simp
  | n :: ns => List.forall_mem_cons.mpr ⟨h.node n, h.nodes ns⟩

theorem inits (h : Ascends P) :
    (inits : List (ElementInit α)) → ∀ c ∈ inits.flatMap ElementInit.args, P c
  | [] => by simp
  | .mk _ args :: rest => List.forall_mem_append.mpr ⟨h.nodes args, h.inits rest⟩

theorem bindings (h : Ascends P) :
    (bs : List (MemberBinding α)) → ∀ c ∈ MemberBinding.nodesAll bs, P c
  | [] => by simp [MemberBinding.nodesAll]
  | .assign _ x :: rest => List.forall_mem_cons.mpr ⟨h.node x, h.bindings rest⟩
  | .bind _ nested :: rest => List.forall_mem_append.mpr ⟨h.bindings nested, h.bindings rest⟩
  | .list _ inits :: rest => List.forall_mem_append.mpr ⟨h.inits inits, h.bindings rest⟩

end

end Node.Ascends

theorem Node.occurrencesAll_eq (ns : List (Node α)) :
    Node.occurrencesAll ns = ns.flatMap Node.occurrences := by
  induction ns with
  | nil => rfl
  | cons n ns ih => rw [Node.occurrencesAll, ih, List.flatMap_cons]

theorem ElementInit.occurrencesAll_eq (inits : List (ElementInit α)) :
    ElementInit.occurrencesAll inits
      = (inits.flatMap ElementInit.args).flatMap Node.occurrences := by
  induction inits with
  | nil => rfl
  | cons init inits ih =>
      obtain ⟨add, args⟩ := init
      rw [ElementInit.occurrencesAll, ih, Node.occurrencesAll_eq, List.flatMap_cons,
        List.flatMap_append]
      rfl

theorem MemberBinding.occurrencesAll_eq : (bs : List (MemberBinding α)) →
    MemberBinding.occurrencesAll bs = (MemberBinding.nodesAll bs).flatMap Node.occurrences
  | [] => rfl
  | .list _ inits :: rest => by
      rw [MemberBinding.occurrencesAll, MemberBinding.nodesAll, List.flatMap_append,
        MemberBinding.nodes, ElementInit.occurrencesAll_eq, MemberBinding.occurrencesAll_eq rest]
  | .bind _ nested :: rest => by
      rw [MemberBinding.occurrencesAll, MemberBinding.nodesAll, List.flatMap_append,
        MemberBinding.nodes, MemberBinding.occurrencesAll_eq nested,
        MemberBinding.occurrencesAll_eq rest]
  | .assign _ x :: rest => by
      rw [MemberBinding.occurrencesAll, MemberBinding.nodesAll, List.flatMap_append,
        MemberBinding.nodes, List.flatMap_singleton, MemberBinding.occurrencesAll_eq rest]

/-- The uses in the nodes `cs`, seen from the node that these are right below. -/
def occurrencesBelow (border : Nat → List Enclosure) (cs : List (Node α)) : List Occurrence :=
  cs.zipIdx.flatMap fun ci => ci.1.occurrences.map (.under (border ci.2))

theorem occurrencesBelow_of_nil {border : Nat → List Enclosure} (h : ∀ i, border i = [])
    (cs : List (Node α)) : occurrencesBelow border cs = cs.flatMap Node.occurrences := by
  have hfst : cs.flatMap Node.occurrences = (cs.zipIdx.map Prod.fst).flatMap Node.occurrences := by
    rw [List.zipIdx_map_fst]
  simp only [occurrencesBelow, h, Occurrence.under_nil, List.map_id, hfst, List.flatMap_map]

/-- The uses in a tree are its own and those in the nodes below it. -/
theorem Payload.occurrences_eq (kind : Kind) (p : Payload α) :
    p.occurrences kind
      = (p.used?.map (⟨·, []⟩)).toList ++ occurrencesBelow (p.border kind) p.children := by
  -- most nodes have nothing to enter between them and those below
  have hplain : ∀ q : Payload α, (∀ i, q.border kind i = []) →
      occurrencesBelow (q.border kind) q.children = q.children.flatMap Node.occurrences :=
    fun q hq => occurrencesBelow_of_nil hq q.children
  cases p with
  | constant | parameter => rfl
  | unary x m lifted =>
      rw [Payload.occurrences]
      split
      case isTrue hq =>
        simp [Payload.used?, Payload.border, Payload.children, occurrencesBelow, hq]
      case isFalse hq =>
        have hborder : ∀ i, (Payload.unary x m lifted).border kind i = [] := fun _ => if_neg hq
        rw [hplain _ hborder]
        simp [Payload.used?, Payload.children]
  | lambda l =>
      obtain ⟨id, name, params, body⟩ := l
      simp [Payload.used?, Payload.border, Payload.children, Payload.occurrences,
        Lambda.occurrences, Lambda.body, Lambda.id, Lambda.params, occurrencesBelow]
  | binary l r m lifted toNull conversion =>
      cases conversion with
      | none =>
          rw [hplain _ fun _ => rfl]
          simp [Payload.used?, Payload.children, Payload.occurrences]
      | some c =>
          obtain ⟨id, name, params, body⟩ := c
          simp [Payload.used?, Payload.border, Payload.children, Payload.occurrences,
            Lambda.occurrences, Lambda.body, Lambda.id, Lambda.params, occurrencesBelow,
            Occurrence.under_nil]
  | memberAccess target m =>
      rw [hplain _ fun _ => rfl]
      cases target <;> simp [Payload.used?, Payload.children, Payload.occurrences]
  | call target m args =>
      rw [hplain _ fun _ => rfl]
      cases target <;>
        simp [Payload.used?, Payload.children, Payload.occurrences, Node.occurrencesAll_eq]
  | conditional | typeIs | assign =>
      rw [hplain _ fun _ => rfl]
      simp [Payload.used?, Payload.children, Payload.occurrences]
  | new | newArray | block | invoke | listInit | memberInit =>
      rw [hplain _ fun _ => rfl]
      simp [Payload.used?, Payload.children, Payload.occurrences, Node.occurrencesAll_eq,
        ElementInit.occurrencesAll_eq, MemberBinding.occurrencesAll_eq]

/-! ## The uses of a tree, place by place -/

theorem Precedes.cons {path path' : List Nat} (h : Precedes path path') (i : Nat) :
    Precedes (i :: path) (i :: path') := List.Lex.cons h

theorem Precedes.of_lt {i j : Nat} (h : i < j) (path path' : List Nat) :
    Precedes (i :: path) (j :: path') := List.Lex.rel h

/-- All places where a tree uses a parameter, in their order; a walk meets the uses in this order,
with these surroundings. -/
structure Node.UsesInOrder (n : Node α) (places : List (List Nat)) : Prop where
  mem_iff : ∀ path, path ∈ places ↔ (n.occurrenceAt? path).isSome = true
  ordered : places.Pairwise Precedes
  met : places.map (n.occurrenceAt? ·) = (occurrencesIn [] n.walk).map some

/-- Places below the nodes `cs`, seen from the node that these are right below. -/
def placesBelow (places : Node α → List (List Nat)) (cs : List (Node α)) : List (List Nat) :=
  cs.zipIdx.flatMap fun ci => (places ci.1).map (ci.2 :: ·)

section Below

variable {places : Node α → List (List Nat)} {cs : List (Node α)}

theorem mem_placesBelow {path : List Nat} :
    path ∈ placesBelow places cs ↔
      ∃ i c rest, cs[i]? = some c ∧ rest ∈ places c ∧ path = i :: rest := by
  simp only [placesBelow, List.mem_flatMap, List.mem_map]
  constructor
  · rintro ⟨⟨c, i⟩, hc, rest, hrest, rfl⟩
    exact ⟨i, c, rest, List.mem_zipIdx_iff_getElem?.mp hc, hrest, rfl⟩
  · rintro ⟨i, c, rest, hc, hrest, rfl⟩
    exact ⟨(c, i), List.mem_zipIdx_iff_getElem?.mpr hc, rest, hrest, rfl⟩

theorem pairwise_placesBelow (h : ∀ c ∈ cs, (places c).Pairwise Precedes) :
    (placesBelow places cs).Pairwise Precedes := by
  have hpositions : cs.zipIdx.Pairwise fun ci cj => ci.2 < cj.2 := by
    rw [← List.pairwise_map (f := Prod.snd), List.zipIdx_map_snd]
    exact List.pairwise_lt_range'
  rw [placesBelow, List.pairwise_flatMap]
  constructor
  · intro ci hci
    have hc : ci.1 ∈ cs := List.mem_of_getElem? (List.mem_zipIdx_iff_getElem?.mp hci)
    rw [List.pairwise_map]
    exact (h ci.1 hc).imp fun hlt => hlt.cons ci.2
  · refine hpositions.imp ?_
    intro ci cj hlt path hpath path' hpath'
    obtain ⟨rest, -, rfl⟩ := List.mem_map.mp hpath
    obtain ⟨rest', -, rfl⟩ := List.mem_map.mp hpath'
    exact .of_lt hlt rest rest'

end Below

namespace Node

variable {n : Node α} {places : Node α → List (List Nat)}

theorem occurrenceAt?_cons {i : Nat} {c : Node α} (hc : n.payload.children[i]? = some c)
    (path : List Nat) : n.occurrenceAt? (i :: path)
      = (c.occurrenceAt? path).map (.under (n.payload.border n.kind i)) := by
  rw [occurrenceAt?, hc]
  rfl

theorem isSome_occurrenceAt?_cons {i : Nat} {path : List Nat} :
    (n.occurrenceAt? (i :: path)).isSome = true ↔
      ∃ c, n.payload.children[i]? = some c ∧ (c.occurrenceAt? path).isSome = true := by
  cases hc : n.payload.children[i]? with
  | none => simp [occurrenceAt?, hc]
  | some c => simp [occurrenceAt?_cons hc]

/-- What is met below a node, place by place. -/
theorem map_placesBelow
    (h : ∀ c ∈ n.payload.children,
      (places c).map (c.occurrenceAt? ·) = (occurrencesIn [] c.walk).map some) :
    (placesBelow places n.payload.children).map (n.occurrenceAt? ·)
      = (occurrencesBelow (n.payload.border n.kind) n.payload.children).map some := by
  rw [placesBelow, occurrencesBelow, List.map_flatMap, List.map_flatMap]
  refine List.flatMap_congr fun ci hci => ?_
  have hget : n.payload.children[ci.2]? = some ci.1 := List.mem_zipIdx_iff_getElem?.mp hci
  have hc := h ci.1 (List.mem_of_getElem? hget)
  rw [occurrencesIn_nil] at hc
  calc ((places ci.1).map (ci.2 :: ·)).map (n.occurrenceAt? ·)
      = ((places ci.1).map (ci.1.occurrenceAt? ·)).map
          (Option.map (.under (n.payload.border n.kind ci.2))) := by
        simp only [List.map_map, Function.comp_def, occurrenceAt?_cons hget]
    _ = (ci.1.occurrences.map (.under (n.payload.border n.kind ci.2))).map some := by
        rw [hc]
        simp only [List.map_map, Function.comp_def, Option.map_some]

/-- The places of a tree are its root, if that uses a parameter, and those below. -/
theorem UsesInOrder.ofChildren (h : ∀ c ∈ n.payload.children, c.UsesInOrder (places c)) :
    n.UsesInOrder
      ((n.payload.used?.map fun _ => []).toList ++ placesBelow places n.payload.children) where
  mem_iff path := by
    cases path with
    | nil => cases hu : n.payload.used? <;> simp [mem_placesBelow, occurrenceAt?, hu]
    | cons i path =>
        rw [isSome_occurrenceAt?_cons]
        simp only [List.mem_append, Option.mem_toList, Option.map_eq_some_iff, reduceCtorEq,
          and_false, exists_false, false_or, mem_placesBelow, List.cons.injEq]
        constructor
        · rintro ⟨i, c, rest, hc, hrest, rfl, rfl⟩
          exact ⟨c, hc, ((h c (List.mem_of_getElem? hc)).mem_iff path).mp hrest⟩
        · rintro ⟨c, hc, hsome⟩
          have hrest := ((h c (List.mem_of_getElem? hc)).mem_iff path).mpr hsome
          exact ⟨i, c, path, hc, hrest, rfl, rfl⟩
  ordered := by
    rw [List.pairwise_append]
    refine ⟨?_, pairwise_placesBelow fun c hc => (h c hc).ordered, ?_⟩
    · cases n.payload.used? <;> simp
    · intro path hpath path' hpath'
      obtain ⟨i, c, rest, -, -, rfl⟩ := mem_placesBelow.mp hpath'
      obtain ⟨p, -, rfl⟩ := Option.map_eq_some_iff.mp (Option.mem_toList.mp hpath)
      exact .nil
  met := by
    have hown : (n.payload.used?.map fun _ => []).toList.map (n.occurrenceAt? ·)
        = (n.payload.used?.map (Occurrence.mk · [])).toList.map some := by
      cases hu : n.payload.used? <;> simp [occurrenceAt?, hu]
    have hocc : n.occurrences = (n.payload.used?.map (Occurrence.mk · [])).toList
        ++ occurrencesBelow (n.payload.border n.kind) n.payload.children := by
      obtain ⟨id, kind, ty, payload⟩ := n
      exact payload.occurrences_eq kind
    rw [occurrencesIn_nil, hocc, List.map_append, List.map_append, hown,
      map_placesBelow fun c hc => (h c hc).met]

/-- The uses that a walk meets are those at the places of the tree, in the order of the places. -/
theorem exists_usesInOrder (n : Node α) : ∃ places, n.UsesInOrder places := by
  have hasc : Ascends fun n : Node α => ∃ places, n.UsesInOrder places := by
    intro n ih
    choose! places hplaces using ih
    exact ⟨_, .ofChildren hplaces⟩
  exact hasc.node n

end Node

/-! ## First uses -/

/-- In a list of uses in order, those of the first occurrences come before all others of the same
parameter. -/
theorem exists_firstUses {us : List (List Nat × Parameter)}
    (h : us.Pairwise fun u v => Precedes u.1 v.1) :
    ∃ vs : List (List Nat × Parameter), vs.Sublist us ∧
      vs.map (·.2) = firstOfEach (us.map (·.2)) ∧
      ∀ v ∈ vs, ∀ u ∈ us, u.2.id = v.2.id → u.1 = v.1 ∨ Precedes v.1 u.1 := by
  induction us with
  | nil => exact ⟨[], .slnil, rfl, by simp⟩
  | cons u us ih =>
      obtain ⟨hu, hus⟩ := List.pairwise_cons.mp h
      obtain ⟨vs, hsub, hmap, hfirst⟩ := ih hus
      refine ⟨u :: vs.filter (fun v => v.2.id ≠ u.2.id), ?_, ?_, ?_⟩
      · exact (List.filter_sublist.trans hsub).cons_cons u
      · rw [List.map_cons, List.map_cons, firstOfEach, ← hmap, List.filter_map]
        rfl
      · intro v hv w hw heq
        rcases List.mem_cons.mp hv with rfl | hv
        · rcases List.mem_cons.mp hw with rfl | hw
          · exact .inl rfl
          · exact .inr (hu w hw)
        · obtain ⟨hv, hne⟩ := List.mem_filter.mp hv
          rcases List.mem_cons.mp hw with rfl | hw
          · exact absurd heq.symm (of_decide_eq_true hne)
          · exact hfirst v hv w hw heq

/-- The place with the parameter that is free there. -/
def Node.freeUse? (n : Node α) (path : List Nat) : Option (List Nat × Parameter) :=
  (n.occurrenceAt? path).bind fun o => o.free?.map (path, ·)

theorem Node.freeUse?_eq_some {n : Node α} {path : List Nat} {u : List Nat × Parameter} :
    n.freeUse? path = some u ↔ u.1 = path ∧ n.FreeAt path u.2 := by
  obtain ⟨path', p⟩ := u
  simp only [Node.freeUse?, Option.bind_eq_some_iff, Option.map_eq_some_iff, Prod.mk.injEq,
    Occurrence.free?_eq_some, Node.FreeAt]
  constructor
  · rintro ⟨o, ho, q, ⟨hfree, rfl⟩, rfl, rfl⟩
    exact ⟨rfl, o, ho, hfree, rfl⟩
  · rintro ⟨rfl, o, ho, hfree, rfl⟩
    exact ⟨o, ho, _, ⟨hfree, rfl⟩, rfl, rfl⟩

namespace Node.UsesInOrder

variable {n : Node α} {places : List (List Nat)}

theorem mem_freeUses (h : n.UsesInOrder places) {u : List Nat × Parameter} :
    u ∈ places.filterMap n.freeUse? ↔ n.FreeAt u.1 u.2 := by
  simp only [List.mem_filterMap, Node.freeUse?_eq_some]
  constructor
  · rintro ⟨path, -, rfl, hfree⟩
    exact hfree
  · intro hfree
    have hused : (n.occurrenceAt? u.1).isSome = true := by
      obtain ⟨o, ho, -⟩ := hfree
      rw [ho]
      rfl
    exact ⟨u.1, (h.mem_iff u.1).mpr hused, rfl, hfree⟩

theorem pairwise_freeUses (h : n.UsesInOrder places) :
    (places.filterMap n.freeUse?).Pairwise fun u v => Precedes u.1 v.1 := by
  refine h.ordered.filterMap n.freeUse? ?_
  intro path path' hlt u hu v hv
  obtain ⟨rfl, -⟩ := Node.freeUse?_eq_some.mp hu
  obtain ⟨rfl, -⟩ := Node.freeUse?_eq_some.mp hv
  exact hlt

theorem map_freeUses (h : n.UsesInOrder places) :
    (places.filterMap n.freeUse?).map (·.2) = n.occurrences.filterMap Occurrence.free? := by
  have hmet := congrArg (List.filterMap fun o => o.bind Occurrence.free?) h.met
  rw [Node.occurrencesIn_nil, List.filterMap_map, List.filterMap_map] at hmet
  rw [List.map_filterMap]
  simpa [Node.freeUse?, Function.comp_def, Option.map_bind] using hmet

end Node.UsesInOrder

/-- **The search for free parameters is exact.** It lists no parameter twice, and it lists exactly
the parameters that are read or assigned at some place that is inside of no lambda declaring them.
The list is in the order of the first such places, and the order of places is that in which a walk
meets the uses. -/
theorem freeParameters_exact (n : Node α) :
    (n.freeParameters.map (·.id)).Nodup ∧
    (∀ x, x ∈ n.freeParameters.map (·.id) ↔ ∃ path p, n.FreeAt path p ∧ p.id = x) ∧
    (∃ firsts, List.Forall₂ n.FirstFreeAt firsts n.freeParameters ∧
      firsts.Pairwise Precedes) ∧
    ∃ places, n.UsesInOrder places := by
  obtain ⟨places, hplaces⟩ := n.exists_usesInOrder
  obtain ⟨vs, hsub, hmap, hfirst⟩ := exists_firstUses hplaces.pairwise_freeUses
  have heq : n.freeParameters = vs.map (·.2) := by
    rw [hmap, hplaces.map_freeUses, n.freeParameters_eq]
  refine ⟨?_, fun x => ?_, ⟨vs.map (·.1), ?_, ?_⟩, places, hplaces⟩
  · rw [n.freeParameters_eq]
    exact nodup_firstOfEach _
  · rw [n.freeParameters_eq, mem_map_id_firstOfEach, ← hplaces.map_freeUses]
    simp only [List.map_map, List.mem_map, Function.comp_apply, hplaces.mem_freeUses, Prod.exists]
  · rw [heq, List.forall₂_map_left_iff, List.forall₂_map_right_iff, List.forall₂_same]
    intro v hv
    refine ⟨hplaces.mem_freeUses.mp (hsub.subset hv), fun path q hfree hid => ?_⟩
    exact hfirst v hv (path, q) (hplaces.mem_freeUses.mpr hfree) hid
  · rw [List.pairwise_map]
    exact hplaces.pairwise_freeUses.sublist hsub

-- `x` is declared twice by one lambda and again by a conversion, and is free only behind them;
-- `y` is free in a quote inside the conversion.
example :
    let x : Parameter := ⟨0, "x", .bool⟩
    let y : Parameter := ⟨1, "y", .bool⟩
    let twice : Lambda Nat := .mk 10 none [x, x] (.parameter 11 x)
    let conversion : Lambda Nat := .mk 12 none [x] (.assign 13 x (.quote 14 (.parameter 15 y)))
    let operand : Node Nat := .ofLambda 1 twice
    (Node.block 0 [.coalesceWith 2 operand operand conversion, .parameter 3 x]).freeParameters
      = [y, x] := rfl

end ExprTree
