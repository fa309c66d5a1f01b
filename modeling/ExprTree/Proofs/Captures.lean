import ExprTree.Proofs.Captures.Surroundings

set_option autoImplicit false

/-! # What the search for captured parameters finds

The search records a use of a parameter when the innermost lambda that declares it is not the one
whose frame runs the use. `capturedUses` lists these uses without removing repetitions; it depends
on the surroundings and the events only, so it splits along a tree. Three facts about
`Lambda.captures` carry everything that is proved about addresses:

* a recorded parameter is declared by the lambda it is recorded for (`idsOf_declares`);
* it is recorded once for that lambda (`idsOf_nodup`);
* every captured use is recorded (`Inside.covered`).

The search knows lambdas by their numbers. That a number stands for one lambda is `Identified`.
-/

namespace ExprTree

variable {α : Type}

/-- Lambdas with the same number are the same lambda. -/
def Identified (es : List (Event α)) : Prop :=
  ∀ l l' : Lambda α, .enter l ∈ es → .enter l' ∈ es → l.id = l'.id → l = l'

/-! ## The recorded parameters of one lambda -/

namespace Captures

/-- The numbers of the captured parameters of one lambda. -/
def idsOf (c : Captures) (l : Nat) : List Nat := (c.ofLambda l).map (·.id)

theorem mem_idsOf {c : Captures} {l x : Nat} : x ∈ c.idsOf l ↔ ∃ p, (l, p) ∈ c ∧ p.id = x := by
  simp only [idsOf, ofLambda, List.mem_map, List.mem_filterMap]
  constructor
  · rintro ⟨p, ⟨⟨l', q⟩, hmem, hq⟩, rfl⟩
    by_cases hl : l' = l
    · subst hl
      simp only [↓reduceIte, Option.some.injEq] at hq
      exact ⟨q, hmem, by rw [hq]⟩
    · simp [hl] at hq
  · rintro ⟨p, hmem, rfl⟩
    exact ⟨p, ⟨(l, p), hmem, by simp⟩, rfl⟩

theorem has_iff {c : Captures} {l : Nat} {p : Parameter} : c.has l p = true ↔ p.id ∈ c.idsOf l := by
  rw [mem_idsOf]
  simp only [has, List.any_eq_true, Bool.and_eq_true, beq_iff_eq, Prod.exists]
  constructor
  · rintro ⟨l', q, hmem, rfl, hq⟩
    exact ⟨q, hmem, hq⟩
  · rintro ⟨q, hmem, hq⟩
    exact ⟨l, q, hmem, rfl, hq⟩

theorem has_append (c d : Captures) (l : Nat) (p : Parameter) :
    has (c ++ d) l p = (c.has l p || d.has l p) := by
  simp [has, List.any_append]

end Captures

/-! ## Captured uses -/

/-- A place of a tree where a parameter is read or assigned. -/
structure Occurrence where
  parameter : Parameter
  /-- The lambdas and quotes between the root of the tree and this place, innermost first. -/
  within : List Enclosure

/-- The uses met by a walk over the events, seen from the surroundings `encl`. -/
def occurrencesIn : List Enclosure → List (Event α) → List Occurrence
  | _, [] => []
  | encl, .enter l :: es => occurrencesIn (.lambda l.id l.params :: encl) es
  | encl, .enterQuote :: es => occurrencesIn (.quote :: encl) es
  | encl, .leave _ :: es | encl, .leaveQuote :: es => occurrencesIn encl.tail es
  | encl, .node _ :: es => occurrencesIn encl es
  | encl, .mention p :: es => ⟨p, encl⟩ :: occurrencesIn encl es

theorem occurrencesIn_append {es : List (Event α)} (h : Balanced es) (encl : List Enclosure)
    (es' : List (Event α)) :
    occurrencesIn encl (es ++ es') = occurrencesIn encl es ++ occurrencesIn encl es' := by
  induction h generalizing encl es' with
  | nil => rfl
  | node n _ ih => exact ih encl es'
  | mention p _ ih => exact congrArg (List.cons ⟨p, encl⟩) (ih encl es')
  | @lambda l es rest _ _ ihe ihr =>
      -- both sides of the append go through the same body, so the hypothesis for it is used twice
      have key : ∀ tail, occurrencesIn encl (.enter l :: (es ++ .leave l :: tail))
          = occurrencesIn (.lambda l.id l.params :: encl) es ++ occurrencesIn encl tail :=
        fun tail => ihe (.lambda l.id l.params :: encl) (.leave l :: tail)
      have hsplit : Event.enter l :: (es ++ .leave l :: rest) ++ es'
          = .enter l :: (es ++ .leave l :: (rest ++ es')) := by simp
      rw [hsplit, key, key, ihr, List.append_assoc]
  | @quote es rest _ _ ihe ihr =>
      have key : ∀ tail, occurrencesIn encl (.enterQuote :: (es ++ .leaveQuote :: tail))
          = occurrencesIn (.quote :: encl) es ++ occurrencesIn encl tail :=
        fun tail => ihe (.quote :: encl) (.leaveQuote :: tail)
      have hsplit : Event.enterQuote :: (es ++ .leaveQuote :: rest) ++ es'
          = .enterQuote :: (es ++ .leaveQuote :: (rest ++ es')) := by simp
      rw [hsplit, key, key, ihr, List.append_assoc]

/-- A use of a parameter, with the lambda that must keep it in a cell; nothing if no cell is
needed. -/
def capturedUse (encl : List Enclosure) (p : Parameter) : Captures :=
  match encl.findSome? (·.declaring? p) with
  | none => []
  | some l => if encl.head?.bind (·.lambda?) = some l then [] else [(l, p)]

/-- All uses that need a cell, seen from the surroundings `encl`. -/
def capturedUses : List Enclosure → List (Event α) → Captures
  | _, [] => []
  | encl, .enter l :: es => capturedUses (.lambda l.id l.params :: encl) es
  | encl, .enterQuote :: es => capturedUses (.quote :: encl) es
  | encl, .leave _ :: es | encl, .leaveQuote :: es => capturedUses encl.tail es
  | encl, .node _ :: es => capturedUses encl es
  | encl, .mention p :: es => capturedUse encl p ++ capturedUses encl es

/-- What needs a cell is decided use by use. -/
theorem capturedUses_eq (encl : List Enclosure) (es : List (Event α)) :
    capturedUses encl es
      = (occurrencesIn encl es).flatMap fun o => capturedUse o.within o.parameter := by
  induction es generalizing encl with
  | nil => rfl
  | cons e es ih => cases e <;> simp [capturedUses, occurrencesIn, ih]

theorem capturedUses_append {es : List (Event α)} (h : Balanced es) (encl : List Enclosure)
    (es' : List (Event α)) :
    capturedUses encl (es ++ es') = capturedUses encl es ++ capturedUses encl es' := by
  simp only [capturedUses_eq, occurrencesIn_append h, List.flatMap_append]

namespace CaptureScan

/-- One use, as the search sees it. -/
theorem has_mention (s : CaptureScan) (p : Parameter) (l : Nat) (q : Parameter) :
    (s.mention p).captures.has l q
      = (s.captures.has l q || (capturedUse s.enclosing p).has l q) := by
  unfold mention capturedUse declaring? current?
  cases hd : s.enclosing.findSome? (·.declaring? p) with
  | none => simp [Captures.has]
  | some d =>
      by_cases hc : s.enclosing.head?.bind (·.lambda?) = some d
      · simp [hc, Captures.has]
      · by_cases hh : s.captures.has d p = true
        · -- A use that is known already adds nothing.
          have hq : Captures.has [(d, p)] l q = true → s.captures.has l q = true := by
            simp only [Captures.has_iff, Captures.mem_idsOf, List.mem_singleton, Prod.mk.injEq]
            rintro ⟨r, ⟨rfl, rfl⟩, hr⟩
            rw [Captures.has_iff, Captures.mem_idsOf] at hh
            obtain ⟨r', hmem, hr'⟩ := hh
            exact ⟨r', hmem, by rw [hr', hr]⟩
          simp only [hc, hh, Bool.or_true, ↓reduceIte]
          cases hx : Captures.has [(d, p)] l q with
          | false => simp
          | true => simp [hq hx]
        · simp [hc, hh, Captures.has_append]

/-- The search finds what it knew before and the captured uses of what it walks over. -/
theorem has_foldl (es : List (Event α)) (s : CaptureScan) (l : Nat) (p : Parameter) :
    (es.foldl step s).captures.has l p
      = (s.captures.has l p || (capturedUses s.enclosing es).has l p) := by
  induction es generalizing s with
  | nil => simp [capturedUses, Captures.has]
  | cons e es ih =>
      rw [List.foldl_cons, ih]
      cases e with
      | mention q =>
          simp only [step, capturedUses, Captures.has_append, has_mention, mention_enclosing,
            Bool.or_assoc]
      | node n => rfl
      | enter l => rfl
      | leave l => rfl
      | enterQuote => rfl
      | leaveQuote => rfl

end CaptureScan

/-! ## Recorded parameters are declared, once -/

/-- The surroundings consist of quotes and of lambdas that were entered. -/
def Entered (es : List (Event α)) (encl : List Enclosure) : Prop :=
  ∀ e ∈ encl, e = .quote ∨ ∃ l : Lambda α, .enter l ∈ es ∧ e = .lambda l.id l.params

theorem Entered.cons {es : List (Event α)} {encl : List Enclosure} {l : Lambda α}
    (h : Entered es encl) (hl : .enter l ∈ es) : Entered es (.lambda l.id l.params :: encl) := by
  intro e he
  rcases List.mem_cons.mp he with rfl | he
  · exact .inr ⟨l, hl, rfl⟩
  · exact h e he

theorem Entered.quote {es : List (Event α)} {encl : List Enclosure} (h : Entered es encl) :
    Entered es (.quote :: encl) := by
  intro e he
  rcases List.mem_cons.mp he with rfl | he
  · exact .inl rfl
  · exact h e he

theorem Entered.tail {es : List (Event α)} {encl : List Enclosure} (h : Entered es encl) :
    Entered es encl.tail :=
  fun e he => h e (List.mem_of_mem_tail he)

/-- The declaring lambda that the surroundings give is one that was entered. -/
theorem Entered.declaring {es : List (Event α)} {encl : List Enclosure} (h : Entered es encl)
    {p : Parameter} {d : Nat} (hd : encl.findSome? (·.declaring? p) = some d) :
    ∃ l : Lambda α, .enter l ∈ es ∧ l.id = d ∧ l.declares p.id = true := by
  obtain ⟨e, he, hde⟩ := List.exists_of_findSome?_eq_some hd
  rcases h e he with rfl | ⟨l, hl, rfl⟩
  · simp [Enclosure.declaring?] at hde
  · simp only [Enclosure.declaring?, Option.ite_none_right_eq_some, Option.some.injEq] at hde
    exact ⟨l, hl, hde.2, hde.1⟩

/-- What holds of the state of a search over a part of `es`. -/
structure CaptureScan.Sound (es : List (Event α)) (s : CaptureScan) : Prop where
  entered : Entered es s.enclosing
  declared : ∀ u ∈ s.captures, ∃ l : Lambda α, .enter l ∈ es ∧ l.id = u.1 ∧
    l.declares u.2.id = true
  once : s.captures.Pairwise fun u v => ¬(u.1 = v.1 ∧ u.2.id = v.2.id)

theorem CaptureScan.Sound.mention {es : List (Event α)} {s : CaptureScan} (h : s.Sound es)
    (p : Parameter) : (s.mention p).Sound es := by
  unfold CaptureScan.mention
  split
  case h_1 => exact h
  case h_2 d hd =>
    split
    case isTrue => exact h
    case isFalse hnew =>
      simp only [Bool.or_eq_true, decide_eq_true_eq, not_or, Bool.not_eq_true] at hnew
      refine ⟨h.entered, ?_, ?_⟩
      · intro u hu
        rcases List.mem_append.mp hu with hu | hu
        · exact h.declared u hu
        · rw [List.mem_singleton.mp hu]
          exact h.entered.declaring hd
      · refine List.pairwise_append.mpr ⟨h.once, List.pairwise_singleton _ _, ?_⟩
        rintro ⟨l, q⟩ hu v hv heq
        obtain rfl := List.mem_singleton.mp hv
        obtain ⟨rfl, hq⟩ := heq
        have hin : p.id ∈ s.captures.idsOf l := Captures.mem_idsOf.mpr ⟨q, hu, hq⟩
        rw [← Captures.has_iff, hnew.2] at hin
        exact Bool.false_ne_true hin

theorem CaptureScan.Sound.foldl {all : List (Event α)} (es : List (Event α)) {s : CaptureScan}
    (h : s.Sound all) (hsub : ∀ e ∈ es, e ∈ all) : (es.foldl CaptureScan.step s).Sound all := by
  induction es generalizing s with
  | nil => exact h
  | cons e es ih =>
      rw [List.foldl_cons]
      refine ih ?_ fun e' he' => hsub e' (List.mem_cons_of_mem _ he')
      have he := hsub e (List.mem_cons_self ..)
      cases e with
      | node n => exact h
      | mention p => exact h.mention p
      | enter l => exact ⟨h.entered.cons he, h.declared, h.once⟩
      | enterQuote => exact ⟨h.entered.quote, h.declared, h.once⟩
      | leave l => exact ⟨h.entered.tail, h.declared, h.once⟩
      | leaveQuote => exact ⟨h.entered.tail, h.declared, h.once⟩

theorem Lambda.captures_sound (root : Lambda α) :
    (root.walk.foldl CaptureScan.step {}).Sound root.walk :=
  CaptureScan.Sound.foldl root.walk ⟨by simp [Entered], by simp, .nil⟩ fun _ he => he

/-- What holds of the recorded parameters. -/
theorem Lambda.mem_captures {root : Lambda α} {u : Nat × Parameter} (hu : u ∈ root.captures) :
    ∃ l : Lambda α, .enter l ∈ root.walk ∧ l.id = u.1 ∧ l.declares u.2.id = true :=
  root.captures_sound.declared u (root.captures_eq_scan ▸ hu)

/-- A captured parameter is declared by its lambda. -/
theorem idsOf_declares {root l : Lambda α} (hid : Identified root.walk) (hl : .enter l ∈ root.walk)
    {x : Nat} (hx : x ∈ root.captures.idsOf l.id) : l.declares x = true := by
  obtain ⟨p, hp, rfl⟩ := Captures.mem_idsOf.mp hx
  obtain ⟨l', hl', heq, hdec⟩ := Lambda.mem_captures hp
  rw [hid l l' hl hl' heq.symm]
  exact hdec

/-- A parameter is recorded once for a lambda. -/
theorem idsOf_nodup (root : Lambda α) (l : Nat) : (root.captures.idsOf l).Nodup := by
  have h := root.captures_sound.once
  rw [← root.captures_eq_scan] at h
  rw [Captures.idsOf, Captures.ofLambda, List.map_filterMap, List.nodup_iff_pairwise_ne]
  refine List.Pairwise.filterMap _ ?_ h
  rintro ⟨a, p⟩ ⟨b, q⟩ hne x hx y hy
  simp only [Option.map_eq_some_iff, Option.ite_none_right_eq_some, Option.some.injEq] at hx hy
  obtain ⟨_, ⟨rfl, rfl⟩, rfl⟩ := hx
  obtain ⟨_, ⟨rfl, rfl⟩, rfl⟩ := hy
  exact fun heq => hne ⟨rfl, heq⟩

/-! ## A place inside a root lambda -/

/-- The lambdas around a place, innermost first, as surroundings. -/
def enclosures (chain : List (Lambda α)) : List Enclosure :=
  chain.map fun l => .lambda l.id l.params

/-- The events `es` belong to a part of `root` that stands inside the lambdas `chain`. -/
structure Inside (root : Lambda α) (chain : List (Lambda α)) (es : List (Event α)) : Prop where
  around : ∀ l ∈ chain, .enter l ∈ root.walk
  events : ∀ e ∈ es, e ∈ root.walk
  covered : ∀ u ∈ capturedUses (enclosures chain) es, u.2.id ∈ root.captures.idsOf u.1

theorem Inside.whole (root : Lambda α) : Inside root [] root.walk := by
  refine ⟨by simp, fun _ he => he, ?_⟩
  rintro ⟨l, p⟩ hu
  have h := CaptureScan.has_foldl root.walk {} l p
  rw [← root.captures_eq_scan] at h
  have hp : (capturedUses [] root.walk).has l p = true :=
    Captures.has_iff.mpr (Captures.mem_idsOf.mpr ⟨p, hu, rfl⟩)
  rw [hp, Bool.or_true] at h
  exact Captures.has_iff.mp h

section Parts

variable {root : Lambda α} {chain : List (Lambda α)}

theorem Inside.left {es es' : List (Event α)} (h : Inside root chain (es ++ es'))
    (hb : Balanced es) : Inside root chain es := by
  refine ⟨h.around, fun e he => h.events e (List.mem_append_left _ he), fun u hu => h.covered u ?_⟩
  rw [capturedUses_append hb]
  exact List.mem_append_left _ hu

theorem Inside.right {es es' : List (Event α)} (h : Inside root chain (es ++ es'))
    (hb : Balanced es) : Inside root chain es' := by
  refine ⟨h.around, fun e he => h.events e (List.mem_append_right _ he), fun u hu => h.covered u ?_⟩
  rw [capturedUses_append hb]
  exact List.mem_append_right _ hu

theorem Inside.payload {id : Nat} {kind : Kind} {ty : Ty} {payload : Payload α}
    (h : Inside root chain (Node.mk id kind ty payload).walk) :
    Inside root chain (payload.walk kind) :=
  ⟨h.around, fun e he => h.events e (List.mem_cons_of_mem _ he), h.covered⟩

/-- The body of a lambda stands inside that lambda. -/
theorem Inside.body {l : Lambda α} (h : Inside root chain l.walk) :
    Inside root (l :: chain) l.body.walk := by
  cases l with
  | mk id name params body =>
      have hl : Event.enter (Lambda.mk id name params body) ∈ root.walk :=
        h.events _ (Lambda.mem_walk.mpr (.inl rfl))
      refine ⟨?_, fun e he => h.events e (Lambda.mem_walk.mpr (.inr (.inl he))), ?_⟩
      · intro l' hl'
        rcases List.mem_cons.mp hl' with rfl | hl'
        · exact hl
        · exact h.around l' hl'
      · intro u hu
        refine h.covered u ?_
        have hsplit : capturedUses (enclosures chain) (Lambda.mk id name params body).walk
            = capturedUses (.lambda id params :: enclosures chain) body.walk ++ [] :=
          capturedUses_append body.walk_balanced _ _
        rw [hsplit, List.append_nil]
        exact hu

end Parts

/-! ## Uses from inside are recorded

The search compares numbers of lambdas to tell whether a use is made by the declaring lambda
itself. If two of the surrounding lambdas had the same number they would be the same lambda, and
both or none of them would declare the parameter. -/

section Recorded

variable {root : Lambda α}

/-- A use by a lambda that does not declare the parameter is recorded for the one that does. -/
theorem recorded_of_use (hid : Identified root.walk) {encl : List Enclosure}
    (hent : Entered root.walk encl) {p : Parameter} {d : Nat}
    (hd : encl.findSome? (·.declaring? p) = some d)
    (hhead : ∀ e, encl.head? = some e → e.declaring? p = none)
    (hcov : ∀ u ∈ capturedUse encl p, u.2.id ∈ root.captures.idsOf u.1) :
    p.id ∈ root.captures.idsOf d := by
  refine hcov (d, p) ?_
  rw [capturedUse, hd]
  -- the use is not made in the frame of the declaring lambda: that lambda would be the innermost
  -- one, which does not declare the parameter
  have hcur : encl.head?.bind (·.lambda?) ≠ some d := by
    intro hcur
    obtain ⟨e, he, hed⟩ := Option.bind_eq_some_iff.mp hcur
    rcases hent e (List.mem_of_head? he) with rfl | ⟨m, hm, rfl⟩
    · simp [Enclosure.lambda?] at hed
    · obtain ⟨l, hl, hld, hdec⟩ := hent.declaring hd
      have hmd : m.id = d := by simpa [Enclosure.lambda?] using hed
      have hml : m = l := hid m l hm hl (by rw [hmd, hld])
      have hnone := hhead _ he
      rw [hml] at hnone
      simp [Enclosure.declaring?, Lambda.declares] at hnone hdec
      obtain ⟨q, hq, hqp⟩ := hdec
      exact hnone q hq hqp
  simp [hcur]

/-- A use that nothing in `inner` declares is recorded for the lambda in `encl` that does. -/
theorem recorded_of_undeclared (hid : Identified root.walk) {inner encl : List Enclosure}
    (hin : Entered root.walk inner) (hent : Entered root.walk encl) {p : Parameter} {d : Nat}
    (hnone : ∀ e ∈ inner, e.declaring? p = none)
    (hd : encl.findSome? (·.declaring? p) = some d)
    (hhead : ∀ e, encl.head? = some e → e.declaring? p = none)
    (hcov : ∀ u ∈ capturedUse (inner ++ encl) p, u.2.id ∈ root.captures.idsOf u.1) :
    p.id ∈ root.captures.idsOf d := by
  have hboth : Entered root.walk (inner ++ encl) := by
    intro e he
    rcases List.mem_append.mp he with he | he
    · exact hin e he
    · exact hent e he
  refine recorded_of_use hid hboth ?_ ?_ hcov
  · rw [List.findSome?_append, List.findSome?_eq_none_iff.mpr hnone, hd]
    rfl
  · intro e he
    cases inner with
    | nil => exact hhead e he
    | cons e' inner =>
        obtain rfl : e' = e := by simpa using he
        exact hnone e' (List.mem_cons_self ..)

/-- The search takes for declared what the surroundings `inner` declare. -/
def FreeScan.Sees (s : FreeScan) (inner : List Enclosure) : Prop :=
  ∀ q, s.isDeclared q = inner.any fun e => (e.declaring? q).isSome

theorem FreeScan.Sees.enter {s : FreeScan} {inner : List Enclosure} (h : s.Sees inner)
    (l : Lambda α) :
    (s.declare l.params).Sees (.lambda l.id l.params :: inner) := by
  intro q
  rw [FreeScan.isDeclared_declare, h q, List.any_cons]
  cases hl : l.params.any (·.id == q.id) <;> simp [Enclosure.declaring?, hl]

theorem FreeScan.Sees.quote {s : FreeScan} {inner : List Enclosure} (h : s.Sees inner) :
    s.Sees (.quote :: inner) := by
  intro q
  rw [h q]
  simp [Enclosure.declaring?]

theorem FreeScan.Sees.congr {s t : FreeScan} {inner : List Enclosure} (h : s.Sees inner)
    (hd : t.declared = s.declared) : t.Sees inner := by
  intro q
  rw [← h q, FreeScan.isDeclared, hd]
  rfl

/-- After a lambda the search sees what it saw before. -/
theorem FreeScan.Sees.leave {s : FreeScan} {inner : List Enclosure} (h : s.Sees inner)
    (l : Lambda α) {es : List (Event α)} (hes : Balanced es) :
    ((es.foldl FreeScan.step (s.step (.enter l))).step (.leave l)).Sees inner := by
  have hback := FreeScan.declared_foldl (.lambda l hes .nil) s
  rw [List.foldl_cons, List.foldl_append] at hback
  exact h.congr hback

/-- A parameter that is free in a part of the tree is recorded for the lambda around that part
that declares it, unless the part belongs to that lambda's own frame. The induction is on the part;
`inner` are the lambdas and quotes between its root and the place that the search has reached. -/
theorem recorded_of_free (hid : Identified root.walk) {encl : List Enclosure}
    (hent : Entered root.walk encl) {es : List (Event α)} (hb : Balanced es) :
    ∀ (inner : List Enclosure) (s : FreeScan),
      Entered root.walk inner → (∀ e ∈ es, e ∈ root.walk) → s.Sees inner →
      (∀ u ∈ capturedUses (inner ++ encl) es, u.2.id ∈ root.captures.idsOf u.1) →
      ∀ p ∈ (es.foldl FreeScan.step s).free, p ∈ s.free ∨
        ∀ d, encl.findSome? (·.declaring? p) = some d →
          (∀ e, encl.head? = some e → e.declaring? p = none) → p.id ∈ root.captures.idsOf d := by
  induction hb with
  | nil => exact fun _ s _ _ _ _ p hp => .inl hp
  | node n _ ih =>
      intro inner s hin hsub hsees hcov
      exact ih inner s hin (fun e he => hsub e (List.mem_cons_of_mem _ he)) hsees hcov
  | @mention q es _ ih =>
      intro inner s hin hsub hsees hcov p hp
      have hsub' : ∀ e ∈ es, e ∈ root.walk := fun e he => hsub e (List.mem_cons_of_mem _ he)
      have hcov' : ∀ u ∈ capturedUses (inner ++ encl) es, u.2.id ∈ root.captures.idsOf u.1 :=
        fun u hu => hcov u (List.mem_append_right _ hu)
      rw [List.foldl_cons] at hp
      by_cases hq : (s.isDeclared q || s.isKnown q) = true
      · have hstep : FreeScan.step s (Event.mention q : Event α) = s := by
          simp [FreeScan.step, hq]
        rw [hstep] at hp
        exact ih inner s hin hsub' hsees hcov' p hp
      · have hstep : FreeScan.step s (Event.mention q : Event α)
            = { s with free := s.free ++ [q] } := by
          simp [FreeScan.step, hq]
        rw [hstep] at hp
        have hsees' : FreeScan.Sees { s with free := s.free ++ [q] } inner := hsees.congr rfl
        rcases ih inner _ hin hsub' hsees' hcov' p hp with hp | hp
        · rcases List.mem_append.mp hp with hp | hp
          · exact .inl hp
          · -- the use just met: nothing inside declares it
            obtain rfl := List.mem_singleton.mp hp
            have hnone : ∀ e ∈ inner, e.declaring? p = none := by
              have hnd : s.isDeclared p = false := by
                simp only [Bool.or_eq_true, not_or, Bool.not_eq_true] at hq
                exact hq.1
              rw [hsees p] at hnd
              intro e he
              simpa using List.any_eq_false.mp hnd e he
            exact .inr fun d hd hhead => recorded_of_undeclared hid hin hent hnone hd hhead
              fun u hu => hcov u (List.mem_append_left _ hu)
        · exact .inr hp
  | @lambda l es rest hes hrest ihe ihr =>
      intro inner s hin hsub hsees hcov p hp
      have hl : Event.enter l ∈ root.walk := hsub _ (List.mem_cons_self ..)
      have hsplit : capturedUses (inner ++ encl) (.enter l :: (es ++ .leave l :: rest))
          = capturedUses (.lambda l.id l.params :: inner ++ encl) es
            ++ capturedUses (inner ++ encl) rest :=
        capturedUses_append hes _ (.leave l :: rest)
      rw [hsplit] at hcov
      rw [List.foldl_cons, List.foldl_append, List.foldl_cons] at hp
      rcases ihr inner _ hin (fun e he => hsub e (by simp [he])) (hsees.leave l hes)
        (fun u hu => hcov u (List.mem_append_right _ hu)) p hp with hp | hp
      · exact ihe (.lambda l.id l.params :: inner) _ (hin.cons hl)
          (fun e he => hsub e (by simp [he])) (hsees.enter l)
          (fun u hu => hcov u (List.mem_append_left _ hu)) p hp
      · exact .inr hp
  | @quote es rest hes hrest ihe ihr =>
      intro inner s hin hsub hsees hcov p hp
      have hsplit : capturedUses (inner ++ encl) (.enterQuote :: (es ++ .leaveQuote :: rest))
          = capturedUses (.quote :: inner ++ encl) es ++ capturedUses (inner ++ encl) rest :=
        capturedUses_append hes _ (.leaveQuote :: rest)
      rw [hsplit] at hcov
      rw [List.foldl_cons, List.foldl_append, List.foldl_cons] at hp
      rcases ihr inner _ hin (fun e he => hsub e (by simp [he]))
        (hsees.congr (FreeScan.declared_foldl hes _))
        (fun u hu => hcov u (List.mem_append_right _ hu)) p hp with hp | hp
      · exact ihe (.quote :: inner) s hin.quote (fun e he => hsub e (by simp [he])) hsees.quote
          (fun u hu => hcov u (List.mem_append_left _ hu)) p hp
      · exact .inr hp

theorem Inside.entered {chain : List (Lambda α)} {es : List (Event α)} (h : Inside root chain es) :
    Entered root.walk (enclosures chain) := by
  intro e he
  obtain ⟨l, hl, rfl⟩ := List.mem_map.mp he
  exact .inr ⟨l, h.around l hl, rfl⟩

theorem declaring_enclosures (chain : List (Lambda α)) (p : Parameter) :
    (enclosures chain).findSome? (·.declaring? p)
      = (chain.find? (·.declares p.id)).map (·.id) := by
  induction chain with
  | nil => rfl
  | cons l chain ih =>
      rw [enclosures, List.map_cons, List.findSome?_cons, List.find?_cons]
      cases hl : l.declares p.id with
      | true =>
          have hp : l.params.any (·.id == p.id) = true := hl
          simp [Enclosure.declaring?, hp]
      | false =>
          have hp : l.params.any (·.id == p.id) = false := hl
          simp only [Enclosure.declaring?, hp, Bool.false_eq_true, ↓reduceIte]
          exact ih

/-- A use in the body of `u` of a parameter that an outer lambda declares. -/
theorem Inside.recorded_mention {u d : Lambda α} {outer : List (Lambda α)} {p : Parameter}
    {es : List (Event α)} (hid : Identified root.walk)
    (h : Inside root (u :: outer) (.mention p :: es)) (hu : u.declares p.id = false)
    (hd : outer.find? (·.declares p.id) = some d) : p.id ∈ root.captures.idsOf d.id := by
  refine recorded_of_use hid h.entered ?_ ?_ fun v hv => h.covered v (List.mem_append_left _ hv)
  · rw [declaring_enclosures, List.find?_cons, hu, hd]
    rfl
  · intro e he
    obtain rfl : Enclosure.lambda u.id u.params = e := by simpa [enclosures] using he
    have hp : u.params.any (·.id == p.id) = false := hu
    simp [Enclosure.declaring?, hp]

/-- A parameter that is free in a quoted tree. -/
theorem Inside.recorded_quote {d : Lambda α} {chain : List (Lambda α)} {p : Parameter} {x : Node α}
    (hid : Identified root.walk)
    (h : Inside root chain (.enterQuote :: x.walk ++ [.leaveQuote]))
    (hp : p ∈ x.freeParameters) (hd : chain.find? (·.declares p.id) = some d) :
    p.id ∈ root.captures.idsOf d.id := by
  have hsplit : capturedUses (enclosures chain) (.enterQuote :: x.walk ++ [.leaveQuote])
      = capturedUses (.quote :: enclosures chain) x.walk ++ [] :=
    capturedUses_append x.walk_balanced _ _
  have hfree := recorded_of_free hid h.entered.quote x.walk_balanced [] {} (by simp [Entered])
    (fun e he => h.events e (by simp [he])) (fun _ => rfl)
    (fun v hv => h.covered v (by rw [hsplit, List.append_nil]; exact hv)) p hp
  refine hfree.resolve_left (by simp) d.id ?_ ?_
  · rw [List.findSome?_cons, declaring_enclosures, hd]
    rfl
  · intro e he
    obtain rfl : Enclosure.quote = e := by simpa using he
    rfl

/-- A parameter that is free in a lambda. -/
theorem Inside.recorded_body {u d : Lambda α} {outer : List (Lambda α)} {p : Parameter}
    (hid : Identified root.walk) (h : Inside root (u :: outer) u.body.walk)
    (hp : p ∈ u.body.freeParameters) (hu : u.declares p.id = false)
    (hd : outer.find? (·.declares p.id) = some d) : p.id ∈ root.captures.idsOf d.id := by
  have hfree := recorded_of_free hid h.entered u.body.walk_balanced [] {} (by simp [Entered])
    h.events (fun _ => rfl) h.covered p hp
  refine hfree.resolve_left (by simp) d.id ?_ ?_
  · rw [declaring_enclosures, List.find?_cons, hu, hd]
    rfl
  · intro e he
    obtain rfl : Enclosure.lambda u.id u.params = e := by simpa [enclosures] using he
    have hp : u.params.any (·.id == p.id) = false := hu
    simp [Enclosure.declaring?, hp]

end Recorded

end ExprTree
