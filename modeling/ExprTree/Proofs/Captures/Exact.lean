import Mathlib.Data.List.Nodup
import ExprTree.Proofs.Identities

set_option autoImplicit false

/-! # Exactly the parameters that are used from further inside

A lambda has to keep a parameter in a cell if the parameter is used from inside a lambda or a quote
that is nested in it, and no lambda in between declares the parameter again. `Node.occurrences`
reads the uses and what stands around them off the tree, without a search state and without the
numbers of lambdas. `captures_ofLambda_exact` says that the search records these parameters, each
once and in the order of their first such use, and nothing else; what is recorded for a lambda is
therefore the same wherever the lambda occurs.
-/

namespace ExprTree

variable {α : Type}

/-! ## Uses and their surroundings -/

namespace Occurrence

/-- The place, seen from a tree in which its own tree stands within `encl`. -/
def under (encl : List Enclosure) (o : Occurrence) : Occurrence :=
  { o with within := o.within ++ encl }

/-- The parameter is used from inside a nested lambda or quote, and no lambda in between declares
it. -/
def Escapes (o : Occurrence) : Prop :=
  o.within ≠ [] ∧ ∀ e ∈ o.within, e.declaring? o.parameter = none

instance (o : Occurrence) : Decidable o.Escapes :=
  inferInstanceAs (Decidable (_ ∧ _))

end Occurrence

mutual

/-- The uses of parameters in a tree, in the order of a walk. -/
def Node.occurrences : Node α → List Occurrence
  | .mk _ kind _ payload => Payload.occurrences kind payload

/-- The uses of parameters in what a node of that kind holds. -/
def Payload.occurrences (kind : Kind) : Payload α → List Occurrence
  | .constant _ => []
  | .parameter p => [⟨p, []⟩]
  | .unary x _ _ =>
      if kind = .quote then (Node.occurrences x).map (.under [.quote]) else Node.occurrences x
  | .binary l r _ _ _ none => Node.occurrences l ++ Node.occurrences r
  | .binary l r _ _ _ (some c) =>
      Node.occurrences l ++ (Node.occurrences r ++ Lambda.occurrences c)
  | .conditional t a b => Node.occurrences t ++ (Node.occurrences a ++ Node.occurrences b)
  | .memberAccess none _ => []
  | .memberAccess (some x) _ => Node.occurrences x
  | .call none _ args => Node.occurrencesAll args
  | .call (some x) _ args => Node.occurrences x ++ Node.occurrencesAll args
  | .new _ args => Node.occurrencesAll args
  | .newArray items => Node.occurrencesAll items
  | .listInit x inits => Node.occurrences x ++ ElementInit.occurrencesAll inits
  | .memberInit x bindings => Node.occurrences x ++ MemberBinding.occurrencesAll bindings
  | .lambda l => Lambda.occurrences l
  | .invoke x args => Node.occurrences x ++ Node.occurrencesAll args
  | .typeIs x _ => Node.occurrences x
  | .assign p x => ⟨p, []⟩ :: Node.occurrences x
  | .block items => Node.occurrencesAll items

/-- The uses of parameters in a lambda. -/
def Lambda.occurrences : Lambda α → List Occurrence
  | .mk id _ params body => (Node.occurrences body).map (.under [.lambda id params])

/-- The uses of parameters in several trees in order. -/
def Node.occurrencesAll : List (Node α) → List Occurrence
  | [] => []
  | n :: ns => Node.occurrences n ++ Node.occurrencesAll ns

/-- The uses of parameters in list initialisers in order. -/
def ElementInit.occurrencesAll : List (ElementInit α) → List Occurrence
  | [] => []
  | .mk _ args :: rest => Node.occurrencesAll args ++ ElementInit.occurrencesAll rest

/-- The uses of parameters in bindings in order. -/
def MemberBinding.occurrencesAll : List (MemberBinding α) → List Occurrence
  | [] => []
  | .assign _ x :: rest => Node.occurrences x ++ MemberBinding.occurrencesAll rest
  | .bind _ nested :: rest =>
      MemberBinding.occurrencesAll nested ++ MemberBinding.occurrencesAll rest
  | .list _ inits :: rest => ElementInit.occurrencesAll inits ++ MemberBinding.occurrencesAll rest

end

/-- The parameters with pairwise different numbers, each where its number first stands. -/
def firstOfEach : List Parameter → List Parameter
  | [] => []
  | p :: ps => p :: (firstOfEach ps).filter fun q => q.id ≠ p.id

/-- The uses in the body of a lambda for which it has to keep a parameter in a cell. -/
def Lambda.escaping (l : Lambda α) : List Occurrence :=
  l.body.occurrences.filter fun o => l.declares o.parameter.id ∧ o.Escapes

/-- The numbers of the parameters that a lambda shares with what is nested in it, in the order of
their first such use. -/
def Lambda.shared (l : Lambda α) : List Nat :=
  (firstOfEach (l.escaping.map (·.parameter))).map (·.id)

/-! ## First occurrences -/

theorem firstOfEach_append (ps qs : List Parameter) :
    firstOfEach (ps ++ qs)
      = firstOfEach ps ++ (firstOfEach qs).filter fun q => q.id ∉ ps.map (·.id) := by
  induction ps with
  | nil =>
      have hall : (firstOfEach qs).filter (fun q => q.id ∉ ([] : List Parameter).map (·.id))
          = firstOfEach qs := List.filter_eq_self.mpr (by simp)
      rw [hall]
      rfl
  | cons p ps ih =>
      rw [List.cons_append, firstOfEach, firstOfEach, ih, List.filter_append, List.cons_append,
        List.filter_filter]
      congr 3
      funext q
      simp

theorem mem_map_id_firstOfEach {ps : List Parameter} {x : Nat} :
    x ∈ (firstOfEach ps).map (·.id) ↔ x ∈ ps.map (·.id) := by
  induction ps with
  | nil => rfl
  | cons p ps ih =>
      by_cases hx : x = p.id
      · simp [firstOfEach, hx]
      · simp only [firstOfEach, List.map_cons, List.mem_cons, hx, false_or, ← ih, List.mem_map,
          List.mem_filter, decide_eq_true_eq]
        constructor
        · rintro ⟨q, ⟨hq, -⟩, rfl⟩
          exact ⟨q, hq, rfl⟩
        · rintro ⟨q, hq, rfl⟩
          exact ⟨q, ⟨hq, hx⟩, rfl⟩

/-- Parameters that are there already are not listed again. -/
theorem firstOfEach_append_of_subset {ps qs : List Parameter}
    (h : ∀ q ∈ qs, q.id ∈ ps.map (·.id)) : firstOfEach (ps ++ qs) = firstOfEach ps := by
  have hnone : (firstOfEach qs).filter (fun q => q.id ∉ ps.map (·.id)) = [] := by
    refine List.filter_eq_nil_iff.mpr fun q hq => ?_
    have hid : q.id ∈ qs.map (·.id) :=
      mem_map_id_firstOfEach.mp (List.mem_map_of_mem hq)
    obtain ⟨r, hr, hrq⟩ := List.mem_map.mp hid
    simp only [← hrq, decide_not, Bool.not_eq_eq_eq_not, Bool.not_true, decide_eq_false_iff_not,
      Decidable.not_not]
    exact h r hr
  rw [firstOfEach_append, hnone, List.append_nil]

/-- Copies of one list have the first occurrences of that list. -/
theorem firstOfEach_copies (ps : List Parameter) (k : Nat) :
    firstOfEach (List.replicate (k + 1) ps).flatten = firstOfEach ps := by
  rw [List.replicate_succ, List.flatten_cons]
  refine firstOfEach_append_of_subset fun q hq => ?_
  obtain ⟨qs, hqs, hq⟩ := List.mem_flatten.mp hq
  rw [List.eq_of_mem_replicate hqs] at hq
  exact List.mem_map_of_mem hq

theorem firstOfEach_of_nodup {ps : List Parameter} (h : (ps.map (·.id)).Nodup) :
    firstOfEach ps = ps := by
  induction ps with
  | nil => rfl
  | cons p ps ih =>
      obtain ⟨hp, hps⟩ := List.nodup_cons.mp h
      have hall : ps.filter (fun q => q.id ≠ p.id) = ps := by
        refine List.filter_eq_self.mpr fun q hq => decide_eq_true ?_
        intro heq
        exact hp (List.mem_map.mpr ⟨q, hq, heq⟩)
      rw [firstOfEach, ih hps, hall]

theorem nodup_firstOfEach (ps : List Parameter) : ((firstOfEach ps).map (·.id)).Nodup := by
  induction ps with
  | nil => exact .nil
  | cons p ps ih =>
      rw [firstOfEach, List.map_cons, List.nodup_cons]
      refine ⟨?_, ih.sublist (List.filter_sublist.map _)⟩
      simp

/-- What is new in `rs` depends on the numbers seen before and not on how often they were seen. -/
theorem firstOfEach_append_congr {ps qs : List Parameter} (h : firstOfEach ps = firstOfEach qs)
    (rs : List Parameter) : firstOfEach (ps ++ rs) = firstOfEach (qs ++ rs) := by
  have hids : ∀ x, x ∈ ps.map (·.id) ↔ x ∈ qs.map (·.id) := fun x => by
    rw [← mem_map_id_firstOfEach, h, mem_map_id_firstOfEach]
  simp only [firstOfEach_append, h, hids]

/-! ## What the search keeps -/

theorem Captures.ofLambda_append (c d : Captures) (l : Nat) :
    Captures.ofLambda (c ++ d) l = c.ofLambda l ++ d.ofLambda l := List.filterMap_append

namespace CaptureScan

/-- One use: it is kept, unless the parameter is known already. -/
theorem firstOfEach_mention (s : CaptureScan) (p : Parameter) (l : Nat) :
    firstOfEach ((s.mention p).captures.ofLambda l)
      = firstOfEach (s.captures.ofLambda l ++ (capturedUse s.enclosing p).ofLambda l) := by
  unfold mention capturedUse declaring? current?
  cases hd : s.enclosing.findSome? (·.declaring? p) with
  | none => simp [Captures.ofLambda]
  | some d =>
      by_cases hc : s.enclosing.head?.bind (·.lambda?) = some d
      · simp [hc, Captures.ofLambda]
      · by_cases hh : s.captures.has d p = true
        · have hknown : ∀ q ∈ Captures.ofLambda [(d, p)] l,
              q.id ∈ (s.captures.ofLambda l).map (·.id) := by
            intro q hq
            by_cases hl : d = l
            · subst hl
              obtain rfl : q = p := by simpa [Captures.ofLambda] using hq
              exact Captures.has_iff.mp hh
            · simp [Captures.ofLambda, hl] at hq
          simp only [hc, hh, Bool.or_true, ↓reduceIte]
          exact (firstOfEach_append_of_subset hknown).symm
        · simp [hc, hh, Captures.ofLambda_append]

/-- The search keeps the first of the captured uses of each parameter. -/
theorem firstOfEach_foldl (es : List (Event α)) (s : CaptureScan) (l : Nat) :
    firstOfEach ((es.foldl step s).captures.ofLambda l)
      = firstOfEach (s.captures.ofLambda l ++ (capturedUses s.enclosing es).ofLambda l) := by
  induction es generalizing s with
  | nil => simp [capturedUses, Captures.ofLambda]
  | cons e es ih =>
      rw [List.foldl_cons, ih]
      cases e with
      | mention p =>
          rw [capturedUses, Captures.ofLambda_append, ← List.append_assoc, step, mention_enclosing]
          exact firstOfEach_append_congr (s.firstOfEach_mention p l) _
      | node n => rfl
      | enter l => rfl
      | leave l => rfl
      | enterQuote => rfl
      | leaveQuote => rfl

end CaptureScan

theorem Lambda.captures_ofLambda (root : Lambda α) (l : Nat) :
    root.captures.ofLambda l = firstOfEach ((capturedUses [] root.walk).ofLambda l) := by
  have h := CaptureScan.firstOfEach_foldl root.walk {} l
  rw [← root.captures_eq_scan] at h
  exact (firstOfEach_of_nodup (idsOf_nodup root l)).symm.trans h

/-! ## Uses along a walk -/

/-- What stands around a use was entered on the way. -/
theorem Entered.occurrence {all : List (Event α)} {es : List (Event α)} {encl : List Enclosure}
    (h : Entered all encl) (hsub : ∀ e ∈ es, e ∈ all) {o : Occurrence}
    (ho : o ∈ occurrencesIn encl es) : Entered all o.within := by
  induction es generalizing encl with
  | nil => simp [occurrencesIn] at ho
  | cons e es ih =>
      have hsub' : ∀ e' ∈ es, e' ∈ all := fun e' he' => hsub e' (List.mem_cons_of_mem _ he')
      cases e with
      | node n => exact ih h hsub' ho
      | enter l => exact ih (h.cons (hsub _ (List.mem_cons_self ..))) hsub' ho
      | leave l => exact ih h.tail hsub' ho
      | enterQuote => exact ih h.quote hsub' ho
      | leaveQuote => exact ih h.tail hsub' ho
      | mention p =>
          rcases List.mem_cons.mp ho with rfl | ho
          · exact h
          · exact ih h hsub' ho

theorem Occurrence.map_under (e : Enclosure) (encl : List Enclosure) (os : List Occurrence) :
    (os.map (Occurrence.under [e])).map (Occurrence.under encl)
      = os.map (Occurrence.under (e :: encl)) := by
  simp [Occurrence.under]

/-! The walk over a tree meets the uses of that tree, and then what comes after it. -/

mutual

theorem Node.occurrencesIn_walk : (n : Node α) → (encl : List Enclosure) → (es : List (Event α)) →
    occurrencesIn encl (n.walk ++ es) = n.occurrences.map (.under encl) ++ occurrencesIn encl es
  | .mk _ kind _ payload, encl, es => Payload.occurrencesIn_walk kind payload encl es

theorem Payload.occurrencesIn_walk (kind : Kind) : (p : Payload α) → (encl : List Enclosure) →
    (es : List (Event α)) → occurrencesIn encl (p.walk kind ++ es)
      = (p.occurrences kind).map (.under encl) ++ occurrencesIn encl es
  | .constant _, _, _ => rfl
  | .parameter _, _, _ => rfl
  | .unary x _ _, encl, es => by
      rw [Payload.walk, Payload.occurrences]
      split
      · have hx := x.occurrencesIn_walk (.quote :: encl) (.leaveQuote :: es)
        rw [Occurrence.map_under]
        simpa [occurrencesIn] using hx
      · exact x.occurrencesIn_walk encl es
  | .binary l r _ _ _ none, encl, es => by
      simp only [Payload.walk, Payload.occurrences, List.append_assoc, List.map_append,
        l.occurrencesIn_walk, r.occurrencesIn_walk]
  | .binary l r _ _ _ (some c), encl, es => by
      simp only [Payload.walk, Payload.occurrences, List.append_assoc, List.map_append,
        l.occurrencesIn_walk, r.occurrencesIn_walk, c.occurrencesIn_walk]
  | .conditional t a b, encl, es => by
      simp only [Payload.walk, Payload.occurrences, List.append_assoc, List.map_append,
        t.occurrencesIn_walk, a.occurrencesIn_walk, b.occurrencesIn_walk]
  | .memberAccess none _, _, _ => rfl
  | .memberAccess (some x) _, encl, es => x.occurrencesIn_walk encl es
  | .call none _ args, encl, es => Node.occurrencesIn_walkAll args encl es
  | .call (some x) _ args, encl, es => by
      simp only [Payload.walk, Payload.occurrences, List.append_assoc, List.map_append,
        x.occurrencesIn_walk, Node.occurrencesIn_walkAll args]
  | .new _ args, encl, es => Node.occurrencesIn_walkAll args encl es
  | .newArray items, encl, es => Node.occurrencesIn_walkAll items encl es
  | .listInit x inits, encl, es => by
      simp only [Payload.walk, Payload.occurrences, List.append_assoc, List.map_append,
        x.occurrencesIn_walk, ElementInit.occurrencesIn_walkAll inits]
  | .memberInit x bindings, encl, es => by
      simp only [Payload.walk, Payload.occurrences, List.append_assoc, List.map_append,
        x.occurrencesIn_walk, MemberBinding.occurrencesIn_walkAll bindings]
  | .lambda l, encl, es => l.occurrencesIn_walk encl es
  | .invoke x args, encl, es => by
      simp only [Payload.walk, Payload.occurrences, List.append_assoc, List.map_append,
        x.occurrencesIn_walk, Node.occurrencesIn_walkAll args]
  | .typeIs x _, encl, es => x.occurrencesIn_walk encl es
  | .assign p x, encl, es => by
      have hx := x.occurrencesIn_walk encl es
      simp [Payload.walk, Payload.occurrences, occurrencesIn, Occurrence.under, hx]
  | .block items, encl, es => Node.occurrencesIn_walkAll items encl es

theorem Lambda.occurrencesIn_walk : (l : Lambda α) → (encl : List Enclosure) →
    (es : List (Event α)) →
    occurrencesIn encl (l.walk ++ es) = l.occurrences.map (.under encl) ++ occurrencesIn encl es
  | .mk id name params body, encl, es => by
      have hbody := body.occurrencesIn_walk (.lambda id params :: encl)
        (.leave (.mk id name params body) :: es)
      rw [Lambda.occurrences, Occurrence.map_under]
      simpa [Lambda.walk, occurrencesIn, Lambda.id, Lambda.params] using hbody

theorem Node.occurrencesIn_walkAll : (ns : List (Node α)) → (encl : List Enclosure) →
    (es : List (Event α)) → occurrencesIn encl (Node.walkAll ns ++ es)
      = (Node.occurrencesAll ns).map (.under encl) ++ occurrencesIn encl es
  | [], _, _ => rfl
  | n :: ns, encl, es => by
      simp only [Node.walkAll, Node.occurrencesAll, List.append_assoc, List.map_append,
        n.occurrencesIn_walk, Node.occurrencesIn_walkAll ns]

theorem ElementInit.occurrencesIn_walkAll : (inits : List (ElementInit α)) →
    (encl : List Enclosure) → (es : List (Event α)) →
    occurrencesIn encl (ElementInit.walkAll inits ++ es)
      = (ElementInit.occurrencesAll inits).map (.under encl) ++ occurrencesIn encl es
  | [], _, _ => rfl
  | .mk _ args :: rest, encl, es => by
      simp only [ElementInit.walkAll, ElementInit.occurrencesAll, List.append_assoc,
        List.map_append, Node.occurrencesIn_walkAll args, ElementInit.occurrencesIn_walkAll rest]

theorem MemberBinding.occurrencesIn_walkAll : (bs : List (MemberBinding α)) →
    (encl : List Enclosure) → (es : List (Event α)) →
    occurrencesIn encl (MemberBinding.walkAll bs ++ es)
      = (MemberBinding.occurrencesAll bs).map (.under encl) ++ occurrencesIn encl es
  | [], _, _ => rfl
  | .assign _ x :: rest, encl, es => by
      simp only [MemberBinding.walkAll, MemberBinding.occurrencesAll, List.append_assoc,
        List.map_append, x.occurrencesIn_walk, MemberBinding.occurrencesIn_walkAll rest]
  | .bind _ nested :: rest, encl, es => by
      simp only [MemberBinding.walkAll, MemberBinding.occurrencesAll, List.append_assoc,
        List.map_append, MemberBinding.occurrencesIn_walkAll nested,
        MemberBinding.occurrencesIn_walkAll rest]
  | .list _ inits :: rest, encl, es => by
      simp only [MemberBinding.walkAll, MemberBinding.occurrencesAll, List.append_assoc,
        List.map_append, ElementInit.occurrencesIn_walkAll inits,
        MemberBinding.occurrencesIn_walkAll rest]

end

theorem Occurrence.under_nil : Occurrence.under [] = id := by
  funext o
  simp [Occurrence.under]

theorem Node.occurrencesIn_nil (n : Node α) : occurrencesIn [] n.walk = n.occurrences := by
  have h := n.occurrencesIn_walk [] []
  simpa [occurrencesIn, Occurrence.under_nil] using h

/-- The uses in a tree, seen from the surroundings of the tree. -/
theorem Node.capturedUses_walk (n : Node α) (encl : List Enclosure) :
    capturedUses encl n.walk
      = n.occurrences.flatMap fun o => capturedUse (o.within ++ encl) o.parameter := by
  have h := n.occurrencesIn_walk encl []
  simp only [List.append_nil, occurrencesIn] at h
  rw [capturedUses_eq, h, List.flatMap_map]
  rfl

theorem Node.occurrence_entered {n : Node α} {o : Occurrence} (ho : o ∈ n.occurrences) :
    Entered n.walk o.within := by
  have hnil : Entered n.walk [] := nofun
  refine hnil.occurrence (fun _ he => he) ?_
  rwa [n.occurrencesIn_nil]

/-! ## Walks, lambda by lambda -/

/-- A walk over whole trees: between the borders of a lambda stands the walk of its body. -/
inductive Walked : List (Event α) → Prop
  | nil : Walked []
  | node (n : Node α) {es : List (Event α)} : Walked es → Walked (.node n :: es)
  | mention (p : Parameter) {es : List (Event α)} : Walked es → Walked (.mention p :: es)
  | lambda (l : Lambda α) {rest : List (Event α)} :
      Walked l.body.walk → Walked rest → Walked (l.walk ++ rest)
  | quote {es rest : List (Event α)} :
      Walked es → Walked rest → Walked (.enterQuote :: (es ++ .leaveQuote :: rest))

namespace Walked

theorem append {es es' : List (Event α)} (h : Walked es) (h' : Walked es') :
    Walked (es ++ es') := by
  induction h with
  | nil => exact h'
  | node n _ ih => exact .node n ih
  | mention p _ ih => exact .mention p ih
  | lambda l hl _ _ ih =>
      rw [List.append_assoc]
      exact .lambda l hl ih
  | quote hes _ _ ih =>
      have h := Walked.quote hes ih
      simpa using h

theorem balanced {es : List (Event α)} (h : Walked es) : Balanced es := by
  induction h with
  | nil => exact .nil
  | node n _ ih => exact .node n ih
  | mention p _ ih => exact .mention p ih
  | lambda l _ _ _ ih => exact l.walk_balanced.append ih
  | quote _ _ ihe ihr => exact .quote ihe ihr

/-- The walk over a tree contains the walks over the lambdas in it. -/
theorem isInfix {es : List (Event α)} (h : Walked es) {l : Lambda α} (hl : .enter l ∈ es) :
    l.walk <:+: es := by
  induction h with
  | nil => simp at hl
  | node n _ ih => exact (ih (by simpa using hl)).trans (List.suffix_cons ..).isInfix
  | mention p _ ih => exact (ih (by simpa using hl)).trans (List.suffix_cons ..).isInfix
  | @lambda c rest _ _ ihb ihr =>
      rcases List.mem_append.mp hl with hl | hl
      · cases c with
        | mk id name params body =>
            rcases Lambda.enter_mem_walk.mp hl with rfl | hl
            · exact (List.prefix_append ..).isInfix
            · refine (ihb hl).trans ⟨[.enter (.mk id name params body)],
                .leave (.mk id name params body) :: rest, ?_⟩
              simp [Lambda.walk, Lambda.body]
      · exact (ihr hl).trans (List.suffix_append ..).isInfix
  | @quote es rest _ _ ihe ihr =>
      simp only [List.mem_cons, reduceCtorEq, List.mem_append, false_or] at hl
      rcases hl with hl | hl
      · exact (ihe hl).trans ⟨[.enterQuote], .leaveQuote :: rest, by simp⟩
      · exact (ihr hl).trans ⟨.enterQuote :: (es ++ [.leaveQuote]), [], by simp⟩

end Walked

mutual

theorem Node.walked : (n : Node α) → Walked n.walk
  | .mk _ kind _ payload => .node _ (Payload.walked kind payload)

theorem Payload.walked (kind : Kind) : (p : Payload α) → Walked (p.walk kind)
  | .constant _ => .nil
  | .parameter p => .mention p .nil
  | .unary x _ _ => by
      rw [Payload.walk]
      split
      · exact .quote x.walked .nil
      · exact x.walked
  | .binary l r _ _ _ none => l.walked.append r.walked
  | .binary l r _ _ _ (some c) => l.walked.append (r.walked.append c.walked)
  | .conditional t a b => t.walked.append (a.walked.append b.walked)
  | .memberAccess none _ => .nil
  | .memberAccess (some x) _ => x.walked
  | .call none _ args => Node.walkedAll args
  | .call (some x) _ args => x.walked.append (Node.walkedAll args)
  | .new _ args => Node.walkedAll args
  | .newArray items => Node.walkedAll items
  | .listInit x inits => x.walked.append (ElementInit.walkedAll inits)
  | .memberInit x bindings => x.walked.append (MemberBinding.walkedAll bindings)
  | .lambda l => l.walked
  | .invoke x args => x.walked.append (Node.walkedAll args)
  | .typeIs x _ => x.walked
  | .assign p x => .mention p x.walked
  | .block items => Node.walkedAll items

theorem Lambda.walked : (l : Lambda α) → Walked l.walk
  | .mk id name params body => by
      have h := Walked.lambda (.mk id name params body) body.walked .nil
      rwa [List.append_nil] at h

theorem Node.walkedAll : (ns : List (Node α)) → Walked (Node.walkAll ns)
  | [] => .nil
  | n :: ns => n.walked.append (Node.walkedAll ns)

theorem ElementInit.walkedAll :
    (inits : List (ElementInit α)) → Walked (ElementInit.walkAll inits)
  | [] => .nil
  | .mk _ args :: rest => (Node.walkedAll args).append (ElementInit.walkedAll rest)

theorem MemberBinding.walkedAll :
    (bs : List (MemberBinding α)) → Walked (MemberBinding.walkAll bs)
  | [] => .nil
  | .assign _ x :: rest => x.walked.append (MemberBinding.walkedAll rest)
  | .bind _ nested :: rest =>
      (MemberBinding.walkedAll nested).append (MemberBinding.walkedAll rest)
  | .list _ inits :: rest => (ElementInit.walkedAll inits).append (MemberBinding.walkedAll rest)

end

/-- No lambda is nested in itself. -/
theorem Lambda.enter_notMem_body (l : Lambda α) : .enter l ∉ l.body.walk := by
  intro hl
  have hlen := (l.body.walked.isInfix hl).length_le
  cases l with
  | mk id name params body =>
      simp only [Lambda.walk, Lambda.body, List.length_append, List.length_cons,
        List.length_nil] at hlen
      omega

/-! ## The uses recorded for one lambda -/

/-- None of the surroundings is the lambda with that number. -/
def Outside (l : Nat) (encl : List Enclosure) : Prop := ∀ e ∈ encl, e.lambda? ≠ some l

theorem Outside.declaring {l : Nat} {encl : List Enclosure} (h : Outside l encl) (p : Parameter) :
    encl.findSome? (·.declaring? p) ≠ some l := by
  intro hd
  obtain ⟨e, he, hed⟩ := List.exists_of_findSome?_eq_some hd
  cases e with
  | quote => cases hed
  | lambda id params =>
      simp only [Enclosure.declaring?, Option.ite_none_right_eq_some, Option.some.injEq] at hed
      exact h _ he (congrArg some hed.2)

/-- A use outside of the lambda is not recorded for it. -/
theorem Outside.capturedUse {l : Nat} {encl : List Enclosure} (h : Outside l encl)
    (p : Parameter) : (capturedUse encl p).ofLambda l = [] := by
  have hne := h.declaring p
  unfold ExprTree.capturedUse
  cases hd : encl.findSome? (·.declaring? p) with
  | none => rfl
  | some d =>
      have hdl : d ≠ l := fun heq => hne (heq ▸ hd)
      dsimp only
      split
      · rfl
      · simp [Captures.ofLambda, hdl]

/-- A use inside of the lambda is recorded for it exactly if it escapes to it. -/
theorem capturedUse_ofLambda (l : Lambda α) {o : Occurrence} {encl : List Enclosure}
    (hin : Outside l.id o.within) (hout : Outside l.id encl) :
    (capturedUse (o.within ++ .lambda l.id l.params :: encl) o.parameter).ofLambda l.id
      = if l.declares o.parameter.id ∧ o.Escapes then [o.parameter] else [] := by
  have hdecl : Enclosure.declaring? o.parameter (.lambda l.id l.params)
      = if l.declares o.parameter.id then some l.id else none := rfl
  unfold capturedUse
  rw [List.findSome?_append, List.findSome?_cons, hdecl]
  cases hd : o.within.findSome? (·.declaring? o.parameter) with
  | some d =>
      -- a lambda in between declares the parameter
      have hdl : d ≠ l.id := fun heq => hin.declaring o.parameter (heq ▸ hd)
      have hesc : ¬o.Escapes := by
        rintro ⟨-, hnone⟩
        rw [List.findSome?_eq_none_iff.mpr hnone] at hd
        cases hd
      simp only [Option.some_or, hesc, and_false, ↓reduceIte]
      split
      · rfl
      · simp [Captures.ofLambda, hdl]
  | none =>
      have hnone := List.findSome?_eq_none_iff.mp hd
      cases hl : l.declares o.parameter.id with
      | false =>
          -- the use belongs to a lambda further out, or to none
          have hne := hout.declaring o.parameter
          simp only [Option.none_or, Bool.false_eq_true, ↓reduceIte, false_and]
          cases hf : encl.findSome? (·.declaring? o.parameter) with
          | none => rfl
          | some d =>
              have hdl : d ≠ l.id := fun heq => hne (heq ▸ hf)
              dsimp only
              split
              · rfl
              · simp [Captures.ofLambda, hdl]
      | true =>
          simp only [Option.none_or, ↓reduceIte, true_and]
          cases hw : o.within with
          | nil => simp [Occurrence.Escapes, hw, Enclosure.lambda?, Captures.ofLambda]
          | cons e within =>
              have hesc : o.Escapes := ⟨by simp [hw], hnone⟩
              have hne : e.lambda? ≠ some l.id := hin e (by simp [hw])
              simp [hesc, hne, Captures.ofLambda]

/-- The part of a list that passes a test, element by element. -/
theorem flatMap_ite_singleton {β γ : Type} (P : β → Prop) [DecidablePred P] (f : β → γ)
    (xs : List β) :
    (xs.flatMap fun x => if P x then [f x] else []) = (xs.filter fun x => P x).map f := by
  induction xs with
  | nil => rfl
  | cons x xs ih => by_cases hx : P x <;> simp [hx, ih]

section Recorded

variable {root l : Lambda α}

/-- Nothing in the body of a lambda has the number of that lambda. -/
theorem Identified.outside_occurrence (hid : Identified root.walk) (hl : .enter l ∈ root.walk)
    {o : Occurrence} (ho : o ∈ l.body.occurrences) : Outside l.id o.within := by
  intro e he heq
  rcases Node.occurrence_entered ho e he with rfl | ⟨c, hc, rfl⟩
  · cases heq
  · have hcroot : .enter c ∈ root.walk := by
      refine (root.walked.isInfix hl).subset ?_
      cases l
      exact Lambda.enter_mem_walk.mpr (.inr hc)
    have hcl : c = l := hid c l hcroot hl (Option.some.inj heq)
    exact l.enter_notMem_body (hcl ▸ hc)

/-- What a lambda records in one place where it stands. -/
theorem capturedUses_body (hid : Identified root.walk) (hl : .enter l ∈ root.walk)
    {encl : List Enclosure} (hout : Outside l.id encl) :
    (capturedUses (.lambda l.id l.params :: encl) l.body.walk).ofLambda l.id
      = l.escaping.map (·.parameter) := by
  rw [Node.capturedUses_walk, Captures.ofLambda, List.filterMap_flatMap, Lambda.escaping,
    ← flatMap_ite_singleton]
  refine List.flatMap_congr fun o ho => ?_
  exact capturedUse_ofLambda l (hid.outside_occurrence hl ho) hout

theorem capturedUses_lambda (c : Lambda α) (encl : List Enclosure) (es : List (Event α)) :
    capturedUses encl (c.walk ++ es)
      = capturedUses (.lambda c.id c.params :: encl) c.body.walk ++ capturedUses encl es := by
  cases c with
  | mk id name params body =>
      rw [capturedUses_append (Lambda.walk_balanced _)]
      congr 1
      have h := capturedUses_append body.walk_balanced (.lambda id params :: encl)
        [.leave (.mk id name params body)]
      simpa [Lambda.walk, capturedUses, Lambda.body, Lambda.id, Lambda.params] using h

/-- Along a walk, the uses recorded for a lambda are those of its body once for every place where
it stands. -/
theorem Walked.recorded (hid : Identified root.walk) (hl : .enter l ∈ root.walk)
    {es : List (Event α)} (h : Walked es) : ∀ encl : List Enclosure, Outside l.id encl →
      (∀ e ∈ es, e ∈ root.walk) → ∃ k, (.enter l ∈ es → 0 < k) ∧
        (capturedUses encl es).ofLambda l.id
          = (List.replicate k (l.escaping.map (·.parameter))).flatten := by
  induction h with
  | nil => exact fun _ _ _ => ⟨0, by simp, rfl⟩
  | node n _ ih =>
      intro encl hout hsub
      obtain ⟨k, hk, heq⟩ := ih encl hout fun e he => hsub e (List.mem_cons_of_mem _ he)
      exact ⟨k, fun hmem => hk (by simpa using hmem), heq⟩
  | mention p _ ih =>
      intro encl hout hsub
      obtain ⟨k, hk, heq⟩ := ih encl hout fun e he => hsub e (List.mem_cons_of_mem _ he)
      refine ⟨k, fun hmem => hk (by simpa using hmem), ?_⟩
      rw [capturedUses, Captures.ofLambda_append, hout.capturedUse, List.nil_append, heq]
  | @lambda c rest _ _ ihb ihr =>
      intro encl hout hsub
      have hc : .enter c ∈ root.walk := hsub _ (by cases c; simp [Lambda.walk])
      obtain ⟨k, hk, heq⟩ := ihr encl hout fun e he => hsub e (List.mem_append_right _ he)
      rw [capturedUses_lambda, Captures.ofLambda_append, heq]
      by_cases hcl : c.id = l.id
      · obtain rfl : c = l := hid c l hc hl hcl
        refine ⟨k + 1, fun _ => Nat.succ_pos k, ?_⟩
        rw [capturedUses_body hid hl hout, List.replicate_succ, List.flatten_cons]
      · have hout' : Outside l.id (.lambda c.id c.params :: encl) := by
          intro e he
          rcases List.mem_cons.mp he with rfl | he
          · exact fun heq => hcl (Option.some.inj heq)
          · exact hout e he
        obtain ⟨j, hj, heqj⟩ := ihb _ hout' fun e he => hsub e <| List.mem_append_left _ <| by
          cases c
          exact Lambda.mem_walk.mpr (.inr (.inl he))
        refine ⟨j + k, fun hmem => ?_, ?_⟩
        · rcases List.mem_append.mp hmem with hmem | hmem
          · have hin : l = c ∨ .enter l ∈ c.body.walk := by
              cases c
              exact Lambda.enter_mem_walk.mp hmem
            rcases hin with rfl | hin
            · exact absurd rfl hcl
            · have := hj hin
              omega
          · have := hk hmem
            omega
        · rw [heqj, List.replicate_add, List.flatten_append]
  | @quote es rest hes _ ihe ihr =>
      intro encl hout hsub
      have hout' : Outside l.id (.quote :: encl) := by
        intro e he
        rcases List.mem_cons.mp he with rfl | he
        · simp [Enclosure.lambda?]
        · exact hout e he
      obtain ⟨j, hj, heqj⟩ := ihe _ hout' fun e he => hsub e (by simp [he])
      obtain ⟨k, hk, heqk⟩ := ihr encl hout fun e he => hsub e (by simp [he])
      have hsplit : capturedUses encl (.enterQuote :: (es ++ .leaveQuote :: rest))
          = capturedUses (.quote :: encl) es ++ capturedUses encl rest :=
        capturedUses_append hes.balanced (.quote :: encl) (.leaveQuote :: rest)
      refine ⟨j + k, fun hmem => ?_, ?_⟩
      · simp only [List.mem_cons, reduceCtorEq, List.mem_append, false_or] at hmem
        rcases hmem with hmem | hmem
        · have := hj hmem
          omega
        · have := hk hmem
          omega
      · rw [hsplit, Captures.ofLambda_append, heqj, heqk, List.replicate_add, List.flatten_append]

/-- What the search records for a lambda is read off the lambda alone. -/
theorem Lambda.captures_eq_escaping (hid : Identified root.walk) (hl : .enter l ∈ root.walk) :
    root.captures.ofLambda l.id = firstOfEach (l.escaping.map (·.parameter)) := by
  obtain ⟨k, hk, heq⟩ := root.walked.recorded hid hl [] (by simp [Outside]) fun _ he => he
  obtain ⟨j, rfl⟩ := Nat.exists_eq_add_one.mpr (hk hl)
  rw [Lambda.captures_ofLambda, heq, firstOfEach_copies]

/-- The numbers recorded for a lambda are those of the parameters it shares. -/
theorem Lambda.idsOf_captures (hid : Identified root.walk) (hl : .enter l ∈ root.walk) :
    root.captures.idsOf l.id = l.shared := by
  rw [Captures.idsOf, Lambda.captures_eq_escaping hid hl, Lambda.shared]

theorem Lambda.mem_shared {x : Nat} :
    x ∈ l.shared ↔
      l.declares x = true ∧ ∃ o ∈ l.body.occurrences, o.parameter.id = x ∧ o.Escapes := by
  rw [Lambda.shared, mem_map_id_firstOfEach]
  simp only [Lambda.escaping, List.map_map, List.mem_map, List.mem_filter, decide_eq_true_eq,
    Function.comp_apply]
  constructor
  · rintro ⟨o, ⟨ho, hdec, hesc⟩, rfl⟩
    exact ⟨hdec, o, ho, rfl, hesc⟩
  · rintro ⟨hdec, o, ho, rfl, hesc⟩
    exact ⟨o, ⟨ho, hdec, hesc⟩, rfl⟩

/-- The search records for a lambda, once each and in the order of their first such use, exactly
the parameters it declares that are used from inside a lambda or quote nested in it with no lambda
in between declaring them. What is recorded does not depend on the root or on where in it the
lambda stands. -/
theorem captures_ofLambda_exact (hid : Identified root.walk) (hl : .enter l ∈ root.walk) :
    root.captures.ofLambda l.id = firstOfEach (l.escaping.map (·.parameter)) ∧
      ((root.captures.ofLambda l.id).map (·.id)).Nodup ∧
      (∀ x, x ∈ (root.captures.ofLambda l.id).map (·.id) ↔
        l.declares x = true ∧ ∃ o ∈ l.body.occurrences, o.parameter.id = x ∧ o.Escapes) ∧
      ∀ root' : Lambda α, Identified root'.walk → .enter l ∈ root'.walk →
        root'.captures.ofLambda l.id = root.captures.ofLambda l.id := by
  rw [Lambda.captures_eq_escaping hid hl]
  refine ⟨rfl, nodup_firstOfEach _, fun _ => Lambda.mem_shared, fun root' hid' hl' => ?_⟩
  exact Lambda.captures_eq_escaping hid' hl'

end Recorded

/-- A tree is made of lambdas that are told apart by their numbers, each as often as it likes. -/
theorem Identified.ofLambdas {es : List (Event α)} {ls : List (Lambda α)}
    (h : (ls.map (·.id)).Nodup) (hes : es.filterMap Event.entered? ⊆ ls) : Identified es := by
  have hmem : ∀ l : Lambda α, .enter l ∈ es → l ∈ ls := fun l hl =>
    hes (List.mem_filterMap.mpr ⟨_, hl, rfl⟩)
  exact fun l l' hl hl' heq => List.inj_on_of_nodup_map h (hmem l hl) (hmem l' hl') heq

namespace Lambda

def redeclaring : Lambda Nat :=
  .mk 11 none [⟨1, "y", .int .i8⟩] (.parameter 4 ⟨1, "y", .int .i8⟩)

def assigning : Lambda Nat :=
  .mk 12 none [] (.assign 6 ⟨1, "y", .int .i8⟩ (.parameter 7 ⟨0, "x", .int .i8⟩))

/-- `(x, y) ↦ { quote x; y ↦ y; () ↦ y := x }`. -/
def keeping : Lambda Nat :=
  .mk 10 none [⟨0, "x", .int .i8⟩, ⟨1, "y", .int .i8⟩] (.block 0 [
    .quote 1 (.parameter 2 ⟨0, "x", .int .i8⟩), .ofLambda 3 redeclaring, .ofLambda 5 assigning])

/-- `y ↦ { keeping; quote keeping }`, with one lambda in two places. -/
def sharing : Lambda Nat :=
  .mk 20 none [⟨1, "y", .int .i8⟩] (.block 8 [.ofLambda 9 keeping, .quote 10 (.ofLambda 9 keeping)])

theorem keeping_identified : Identified keeping.walk := by
  have hls : ((keeping.walk.filterMap Event.entered?).map (·.id)).Nodup := by decide
  exact .ofLambdas hls (List.Subset.refl _)

theorem sharing_identified : Identified sharing.walk := by
  have hes : sharing.walk.filterMap Event.entered?
      = [sharing, keeping, redeclaring, assigning, keeping, redeclaring, assigning] := rfl
  have hls : (List.map (·.id) [sharing, keeping, redeclaring, assigning]).Nodup := by decide
  refine .ofLambdas hls ?_
  rw [hes]
  simp

end Lambda

/-- The shared lambda keeps both parameters in cells: `x` for the quote, and `y` for the lambda
that assigns it, but not for the lambda that declares it again. -/
theorem captures_ofLambda_exact_shared :
    Identified Lambda.sharing.walk ∧ .enter .keeping ∈ Lambda.sharing.walk ∧
      (Lambda.sharing.captures.ofLambda Lambda.keeping.id).map (·.name) = ["x", "y"] ∧
      Lambda.keeping.captures.ofLambda Lambda.keeping.id
        = Lambda.sharing.captures.ofLambda Lambda.keeping.id := by
  have hl : .enter .keeping ∈ Lambda.sharing.walk := List.mem_of_getElem? (i := 3) rfl
  have hroot : .enter .keeping ∈ Lambda.keeping.walk := List.mem_of_getElem? (i := 0) rfl
  have h := captures_ofLambda_exact Lambda.sharing_identified hl
  refine ⟨Lambda.sharing_identified, hl, ?_, h.2.2.2 _ Lambda.keeping_identified hroot⟩
  rw [h.1]
  rfl

end ExprTree
