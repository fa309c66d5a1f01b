import ExprTree.Proofs.Walk

set_option autoImplicit false

/-! # The search for captured parameters, told by its surroundings

`CaptureAnalysis` keeps a marker for the running lambda, what the marker was outside, and a stack of
declaring lambdas for every parameter. All of this can be read off one list, the lambdas and quotes
around the current place. `CaptureScan` is the same search with that list as its state, and
`Lambda.captures_eq_scan` says that both find the same parameters in the same order. The two agree
on balanced events only: a border that is crossed back takes from the stacks what it put there.
-/

namespace ExprTree

variable {α : Type}

/-- What surrounds a place in a tree. -/
inductive Enclosure
  | lambda (id : Nat) (params : List Parameter)
  | quote

namespace Enclosure

/-- The lambda, if this is one that declares the parameter. -/
def declaring? (p : Parameter) : Enclosure → Option Nat
  | .lambda id params => if params.any (·.id == p.id) then some id else none
  | .quote => none

/-- The lambda, unless this is a quote. -/
def lambda? : Enclosure → Option Nat
  | .lambda id _ => some id
  | .quote => none

/-- The lambda, as often as it declares the parameter. -/
def declarations (p : Nat) : Enclosure → List Nat
  | .lambda id params => List.replicate (params.countP (·.id == p)) id
  | .quote => []

theorem head?_declarations (p : Parameter) (e : Enclosure) :
    (e.declarations p.id).head? = e.declaring? p := by
  cases e with
  | quote => rfl
  | lambda id params =>
      rw [declarations, declaring?, List.head?_replicate]
      by_cases h : ∃ q ∈ params, q.id = p.id
      · simp [h]
      · simp_all

end Enclosure

/-- State of the search, with the surroundings as one list. -/
structure CaptureScan where
  /-- The surroundings of the current place, innermost first. -/
  enclosing : List Enclosure := []
  captures : Captures := []

namespace CaptureScan

/-- The innermost lambda around the current place that declares the parameter. -/
def declaring? (s : CaptureScan) (p : Parameter) : Option Nat :=
  s.enclosing.findSome? (·.declaring? p)

/-- The lambda whose frame runs the current place; a quote has none. -/
def current? (s : CaptureScan) : Option Nat := s.enclosing.head?.bind (·.lambda?)

/-- A use of a parameter. -/
def mention (s : CaptureScan) (p : Parameter) : CaptureScan :=
  match s.declaring? p with
  | none => s
  | some l =>
      if s.current? = some l || s.captures.has l p then s
      else { s with captures := s.captures ++ [(l, p)] }

/-- What one event changes. -/
def step (s : CaptureScan) : Event α → CaptureScan
  | .enter l => { s with enclosing := .lambda l.id l.params :: s.enclosing }
  | .enterQuote => { s with enclosing := .quote :: s.enclosing }
  | .leave _ | .leaveQuote => { s with enclosing := s.enclosing.tail }
  | .mention p => s.mention p
  | .node _ => s

theorem mention_enclosing (s : CaptureScan) (p : Parameter) :
    (s.mention p).enclosing = s.enclosing := by
  unfold mention
  split
  · rfl
  · split <;> rfl

end CaptureScan

/-! ## The stacks of declaring lambdas -/

namespace Declarers

theorem of_set (d : Declarers) (p q : Nat) (ls : List Nat) :
    (d.set p ls).of q = if q = p then ls else d.of q := by
  have hothers : (d.filter (·.1 != p)).find? (·.1 == q)
      = if q = p then none else d.find? (·.1 == q) := by
    rw [List.find?_filter]
    by_cases hq : q = p
    · simp [hq]
    · rw [if_neg hq]
      refine congrArg (d.find? ·) (funext fun entry => ?_)
      by_cases hentry : entry.1 = q <;> simp [hentry, hq]
  unfold set of
  cases ls with
  | nil =>
      simp only [List.isEmpty_nil, ↓reduceIte, hothers]
      split <;> rfl
  | cons l ls =>
      by_cases hq : q = p
      · simp [hq]
      · simp only [List.isEmpty_cons, Bool.false_eq_true, ↓reduceIte, hq,
          List.find?_cons_of_neg, beq_iff_eq, Ne.symm hq, not_false_eq_true, hothers]

/-- A lambda is put on the stack of a parameter as often as it declares it. -/
theorem of_foldl_push (l q : Nat) (params : List Parameter) (d : Declarers) :
    (params.foldl (·.push l ·) d).of q
      = List.replicate (params.countP (·.id == q)) l ++ d.of q := by
  induction params generalizing d with
  | nil => simp
  | cons p params ih =>
      rw [List.foldl_cons, ih, push, of_set, List.countP_cons]
      by_cases hq : q = p.id
      · subst hq
        simp [List.replicate_succ', List.append_assoc]
      · simp [hq, Ne.symm hq]

/-- It is taken off as often. -/
theorem of_foldl_pop (q : Nat) (params : List Parameter) (d : Declarers) :
    (params.foldl (·.pop ·) d).of q = (d.of q).drop (params.countP (·.id == q)) := by
  induction params generalizing d with
  | nil => simp
  | cons p params ih =>
      rw [List.foldl_cons, ih, pop, of_set, List.countP_cons]
      by_cases hq : q = p.id
      · subst hq
        simp [List.drop_tail]
      · simp [hq, Ne.symm hq]

end Declarers

/-! ## Both searches side by side -/

/-- What the marker is outside of each of the surroundings. -/
def outerMarkers : List Enclosure → List (Option Nat)
  | [] => []
  | _ :: encl => encl.head?.bind (·.lambda?) :: outerMarkers encl

/-- The state of the analysis is what the surroundings say. -/
structure CaptureAnalysis.Tracks (a : CaptureAnalysis) (s : CaptureScan) : Prop where
  current : a.current = s.current?
  outer : a.outer = outerMarkers s.enclosing
  declared : ∀ p, a.declared.of p = s.enclosing.flatMap (·.declarations p)
  captures : a.captures = s.captures

namespace CaptureAnalysis.Tracks

variable {a : CaptureAnalysis} {s : CaptureScan}

/-- The top of a parameter's stack is the innermost lambda that declares it. -/
theorem head?_declared (h : a.Tracks s) (p : Parameter) :
    (a.declared.of p.id).head? = s.declaring? p := by
  simp only [h.declared, List.head?_flatMap, Enclosure.head?_declarations, CaptureScan.declaring?]

theorem mention (h : a.Tracks s) (p : Parameter) : (a.mention p).Tracks (s.mention p) := by
  have hhead := h.head?_declared p
  unfold CaptureAnalysis.mention CaptureScan.mention
  cases hof : a.declared.of p.id with
  | nil =>
      rw [hof] at hhead
      rw [← hhead]
      exact h
  | cons l ls =>
      rw [hof, List.head?_cons] at hhead
      rw [← hhead, h.current, h.captures]
      dsimp only
      split
      · exact h
      · exact ⟨rfl, h.outer, h.declared, rfl⟩

/-- A border that is crossed puts the marker aside. -/
theorem outer_enclose (h : a.Tracks s) (current : Option Nat) (e : Enclosure) :
    (a.enclose current).outer = outerMarkers (e :: s.enclosing) := by
  rw [CaptureAnalysis.enclose, h.outer, h.current]
  rfl

/-- A border that is crossed back brings the marker back. -/
theorem restore {e : Enclosure} {encl : List Enclosure} (h : a.Tracks s)
    (hs : s.enclosing = e :: encl) :
    a.restore.current = encl.head?.bind (·.lambda?) ∧ a.restore.outer = outerMarkers encl := by
  have houter := h.outer
  rw [hs, outerMarkers] at houter
  rw [CaptureAnalysis.restore, houter]
  exact ⟨rfl, rfl⟩

theorem enter (h : a.Tracks s) (l : Lambda α) :
    (a.step (.enter l)).Tracks (s.step (.enter l)) := by
  refine ⟨rfl, h.outer_enclose (some l.id) (.lambda l.id l.params), fun p => ?_, h.captures⟩
  rw [CaptureAnalysis.step, CaptureAnalysis.enclose, Declarers.of_foldl_push, h.declared]
  rfl

theorem enterQuote (h : a.Tracks s) :
    (a.step (.enterQuote : Event α)).Tracks (s.step (.enterQuote : Event α)) :=
  ⟨rfl, h.outer_enclose none .quote, h.declared, h.captures⟩

theorem leave {encl : List Enclosure} {l : Lambda α} (h : a.Tracks s)
    (hs : s.enclosing = .lambda l.id l.params :: encl) :
    (a.step (.leave l)).Tracks (s.step (.leave l)) := by
  obtain ⟨hcurrent, houter⟩ := h.restore hs
  have htail : (s.step (.leave l)).enclosing = encl := congrArg List.tail hs
  refine ⟨?_, ?_, fun p => ?_, h.captures⟩
  · rw [CaptureScan.current?, htail]
    exact hcurrent
  · rw [htail]
    exact houter
  · rw [CaptureAnalysis.step, Declarers.of_foldl_pop, h.declared, hs, List.flatMap_cons,
      Enclosure.declarations, List.drop_left' List.length_replicate, htail]

theorem leaveQuote {encl : List Enclosure} (h : a.Tracks s) (hs : s.enclosing = .quote :: encl) :
    (a.step (.leaveQuote : Event α)).Tracks (s.step (.leaveQuote : Event α)) := by
  obtain ⟨hcurrent, houter⟩ := h.restore hs
  have htail : (s.step (.leaveQuote : Event α)).enclosing = encl := congrArg List.tail hs
  refine ⟨?_, ?_, fun p => ?_, h.captures⟩
  · rw [CaptureScan.current?, htail]
    exact hcurrent
  · rw [htail]
    exact houter
  · -- a quote declares nothing
    have hdeclared := h.declared p
    rw [hs, List.flatMap_cons, Enclosure.declarations, List.nil_append] at hdeclared
    rw [htail]
    exact hdeclared

/-- Balanced events keep the two searches together and lead back to the same surroundings. -/
theorem foldl {es : List (Event α)} (hes : Balanced es) :
    ∀ {a : CaptureAnalysis} {s : CaptureScan}, a.Tracks s →
      (es.foldl CaptureAnalysis.step a).Tracks (es.foldl CaptureScan.step s) ∧
        (es.foldl CaptureScan.step s).enclosing = s.enclosing := by
  induction hes with
  | nil => exact fun h => ⟨h, rfl⟩
  | node n _ ih => exact fun h => ih h
  | mention p _ ih =>
      intro a s h
      obtain ⟨htracks, hencl⟩ := ih (h.mention p)
      exact ⟨htracks, hencl.trans (s.mention_enclosing p)⟩
  | @lambda l es rest _ _ ihe ihr =>
      intro a s h
      rw [List.foldl_cons, List.foldl_cons, List.foldl_append, List.foldl_append, List.foldl_cons,
        List.foldl_cons]
      obtain ⟨hbody, hencl⟩ := ihe (h.enter l)
      obtain ⟨hrest, hback⟩ := ihr (hbody.leave hencl)
      exact ⟨hrest, hback.trans (congrArg List.tail hencl)⟩
  | @quote es rest _ _ ihe ihr =>
      intro a s h
      rw [List.foldl_cons, List.foldl_cons, List.foldl_append, List.foldl_append, List.foldl_cons,
        List.foldl_cons]
      obtain ⟨hbody, hencl⟩ := ihe h.enterQuote
      obtain ⟨hrest, hback⟩ := ihr (hbody.leaveQuote hencl)
      exact ⟨hrest, hback.trans (congrArg List.tail hencl)⟩

end CaptureAnalysis.Tracks

/-- Marker and stacks find what the surroundings show. -/
theorem Lambda.captures_eq_scan (root : Lambda α) :
    root.captures = (root.walk.foldl CaptureScan.step {}).captures := by
  have hstart : CaptureAnalysis.Tracks {} {} := ⟨rfl, rfl, fun _ => rfl, rfl⟩
  exact (hstart.foldl root.walk_balanced).1.captures

end ExprTree
