import ExprTree.Proofs.Agreement
import ExprTree.Proofs.Sessions

set_option autoImplicit false

/-! # Raising the limit of call depth

A program compiled with a higher limit has the same code. Run next to the program with the lower
limit `N`, it goes through the same invocations at the same depths until the lower limit is reached.
So the two runs differ only if the first one ends with the error of the limit `N`
(`invokeAt_raised`, by induction on the nesting). The main result is
`session_raiseLimit`, for every session that starts in any state, if the host does not hand over to
compiled code.
-/

namespace ExprTree

/-! ## Programs and scopes with another limit -/

/-- The program with another limit of call depth. -/
def Program.withLimit (limit : UInt32) (p : Program) : Program :=
  { p with options := { p.options with maxCallDepth := limit } }

/-- The limit has no influence on the code. -/
theorem Program.ofLambda_withLimit {schema : Schema} {options : Options} {root : Lambda Value}
    {p : Program} (h : Program.ofLambda schema options root = .ok p) (limit : UInt32) :
    Program.ofLambda schema { options with maxCallDepth := limit } root
      = .ok (p.withLimit limit) := by
  unfold Program.ofLambda at h ⊢
  cases hr : (root.emit ⟨schema, root.captures⟩ none).run {} with
  | error e => rw [hr] at h; cases h
  | ok out =>
      rw [hr] at h
      cases h
      rfl

namespace Scope

/-- The scope with another limit of its program. -/
def withLimit (limit : UInt32) : Scope → Scope
  | .root p u => .root (p.withLimit limit) u
  | .nested parent u locals => .nested (parent.withLimit limit) u locals

variable (limit : UInt32) (s : Scope)

@[simp] theorem program_withLimit : (s.withLimit limit).program = s.program.withLimit limit := by
  induction s with
  | root p u => rfl
  | nested parent u locals ih => exact ih

@[simp] theorem unit_withLimit : (s.withLimit limit).unit = s.unit := by
  cases s <;> rfl

@[simp] theorem unit?_withLimit : (s.withLimit limit).unit? = s.unit? := by
  rw [unit?, program_withLimit, unit_withLimit]
  rfl

@[simp] theorem localsAt_withLimit (level : Nat) :
    (s.withLimit limit).localsAt level = s.localsAt level := by
  induction level generalizing s with
  | zero => cases s <;> rfl
  | succ level ih =>
      cases s with
      | root p u => rfl
      | nested parent u locals => exact ih parent

theorem findFrom_withLimit (units : Arena CodeUnit) (p : Nat) (u : CodeUnit) (own : Option Nat) :
    (s.withLimit limit).findFrom units p u own = s.findFrom units p u own := by
  induction s generalizing u own with
  | root => rfl
  | nested parent v locals ih => simp only [withLimit, findFrom, ih]

@[simp] theorem find?_withLimit (own : Option Nat) (p : Nat) :
    (s.withLimit limit).find? own p = s.find? own p := by
  rw [find?, find?, unit?_withLimit, program_withLimit]
  simp only [findFrom_withLimit]
  rfl

end Scope

/-! ## Worlds that differ in limits -/

/-- The scopes are the same, or the program of the first one has the limit `N` and that of the
second one the limit `N'` instead. -/
inductive Scope.Raised (N N' : UInt32) : Scope → Scope → Prop
  | same (s : Scope) : Raised N N' s s
  | raised (s : Scope) (h : s.program.options.maxCallDepth = N) : Raised N N' s (s.withLimit N')

/-- The worlds have the same heap, cells and calls of host functions, and the same closures up to
limits that are raised from `N` to `N'`. -/
structure World.Raised (N N' : UInt32) (w v : World) : Prop where
  heap : v.heap = w.heap
  cells : v.cells = w.cells
  calls : v.calls = w.calls
  count : v.closures.size = w.closures.size
  closures : ∀ (i : Nat) (s t : Scope), w.closures[i]? = some s → v.closures[i]? = some t →
    s.Raised N N' t

section Raised

variable {N N' : UInt32}

namespace Scope.Raised

variable {s t : Scope}

theorem unit? (h : s.Raised N N' t) : t.unit? = s.unit? := by
  cases h with
  | same => rfl
  | raised => exact s.unit?_withLimit N'

theorem nested (h : s.Raised N N' t) (u : Nat) (locals : Option Nat) :
    (Scope.nested s u locals).Raised N N' (.nested t u locals) := by
  cases h with
  | same => exact .same _
  | raised h => exact .raised (.nested s u locals) h

theorem parallel (h : s.Raised N N' t) (cells : Option Nat) (depth : UInt32) :
    Frame.Parallel ⟨s, cells, depth⟩ ⟨t, cells, depth⟩ := by
  cases h with
  | same => exact .refl _
  | raised =>
      refine ⟨rfl, rfl, fun level => s.localsAt_withLimit N' level,
        fun own p => s.find?_withLimit N' own p, ?_⟩
      show (s.withLimit N').program.pool = s.program.pool
      rw [Scope.program_withLimit]
      rfl

end Scope.Raised

namespace World.Raised

variable {w v : World}

theorem refl (N N' : UInt32) (w : World) : w.Raised N N' w := by
  refine ⟨rfl, rfl, rfl, rfl, fun i s t hs ht => ?_⟩
  rw [hs] at ht
  cases ht
  exact .same s

/-- A new closure on both sides. -/
theorem newClosure (h : w.Raised N N' v) {s t : Scope} (hst : s.Raised N N' t) :
    (v.newClosure t).1 = (w.newClosure s).1 ∧
      (w.newClosure s).2.Raised N N' (v.newClosure t).2 := by
  constructor
  · simp only [World.newClosure, hst.unit?, h.count]
  · refine ⟨h.heap, h.cells, h.calls, ?_, fun i s' t' hs ht => ?_⟩
    · show (v.closures.push t).size = (w.closures.push s).size
      rw [Array.size_push, Array.size_push, h.count]
    · have hs' : (w.closures.push s)[i]? = some s' := hs
      have ht' : (v.closures.push t)[i]? = some t' := ht
      rw [Array.getElem?_push] at hs' ht'
      rw [h.count] at ht'
      split at hs'
      case isTrue hi =>
        rw [if_pos hi] at ht'
        cases hs'
        cases ht'
        exact hst
      case isFalse hi =>
        rw [if_neg hi] at ht'
        exact h.closures i s' t' hs' ht'

theorem newCells (h : w.Raised N N' v) (u : CodeUnit) (args : List Value) :
    (u.newCells args w).2.Raised N N' (u.newCells args v).2 := by
  unfold CodeUnit.newCells
  split
  · exact h
  · refine ⟨h.heap, ?_, h.calls, h.count, h.closures⟩
    simp only [World.newCells, h.cells]

end World.Raised

/-- Worlds that differ in limits agree until the lower limit is reached. -/
def Agreement.raising (N N' : UInt32) : Agreement where
  Rel := World.Raised N N'
  allows _ _ := True
  excused e := e = .raised (.recursionLimit N.toNat)
  raised _ _ := trivial
  unfinished _ := trivial
  heap h := h.heap
  cells h := h.cells
  calls h := h.calls
  withHeap _ h := ⟨rfl, h.cells, h.calls, h.count, h.closures⟩
  withCalls _ h := ⟨h.heap, h.cells, rfl, h.count, h.closures⟩
  setCell c k x h := ⟨h.heap, by simp only [h.cells], h.calls, h.count, h.closures⟩

/-- Both runs end in the same way, unless the first one reaches the limit `N`. -/
abbrev RaisedRuns {β : Type} (N N' : UInt32) (x y : Eval β) : Prop :=
  (Agreement.raising N N').Runs x y

/-! ## Invocations -/

/-- A closure leads to the same scope, up to a limit that is raised. -/
theorem World.Raised.scope? {w v : World} (h : w.Raised N N' v) (f : FunctionRef) :
    (w.scope? f = none ∧ v.scope? f = none) ∨
      ∃ s t, w.scope? f = some s ∧ v.scope? f = some t ∧ s.Raised N N' t := by
  by_cases hlt : f.id < w.closures.size
  · have hlt' : f.id < v.closures.size := by rw [h.count]; exact hlt
    have hs := Array.getElem?_eq_getElem hlt
    have ht := Array.getElem?_eq_getElem hlt'
    exact .inr ⟨_, _, hs, ht, h.closures f.id _ _ hs ht⟩
  · have hge := Nat.not_lt.mp hlt
    exact .inl ⟨Array.getElem?_eq_none hge, Array.getElem?_eq_none (by rw [h.count]; exact hge)⟩

theorem RaisedRuns.ofClosure {f : FunctionRef} {x y : Scope → Eval Value}
    (h : ∀ s t, s.Raised N N' t → RaisedRuns N N' (x s) (y t)) :
    RaisedRuns N N' (do x (← Eval.scopeOf f)) (do y (← Eval.scopeOf f)) := by
  intro w v hwv
  rcases World.Raised.scope? hwv f with ⟨hw, hv⟩ | ⟨s, t, hw, hv, hst⟩
  · rw [bind_of_error (Eval.scopeOf_of_none hw), bind_of_error (Eval.scopeOf_of_none hv)]
    exact .error _ hwv trivial
  · rw [bind_of_ok (Eval.scopeOf_of_some hw), bind_of_ok (Eval.scopeOf_of_some hv)]
    exact h s t hst w v hwv

theorem RaisedRuns.newClosure {s t : Scope} (hst : s.Raised N N' t) :
    RaisedRuns N N' (modifyGet (·.newClosure s)) (modifyGet (·.newClosure t)) := by
  intro w v hwv
  obtain ⟨hvalue, hworld⟩ := World.Raised.newClosure hwv hst
  show EndsEqual _ _ _ (.ok (w.newClosure s).1 _) (.ok (v.newClosure t).1 _)
  rw [hvalue]
  exact .ok _ hworld

/-- A unit that is run in scopes with different limits. -/
theorem RaisedRuns.unit {cx cx' : Context} {depth : UInt32}
    (hcx : cx.Parallel (.raising N N') depth cx') {s t : Scope} (hst : s.Raised N N' t)
    (u : CodeUnit) (args : List Value) :
    RaisedRuns N N' (u.run cx s depth args) (u.run cx' t depth args) := by
  intro w v hwv
  refine u.run_agree (A := .raising N N') (World.Raised.cells hwv)
    (World.Raised.newCells hwv u args) ?_
  exact u.body.run_agree hcx (hst.parallel _ depth) fun i _ =>
    RaisedRuns.newClosure (hst.nested i _)

/-- The test of the depth: where the limit is raised it may pass although it fails otherwise, with
the error of the limit `N`. -/
theorem RaisedRuns.depth (hle : N ≤ N') {s t : Scope} (hst : s.Raised N N' t) (depth : UInt32) :
    RaisedRuns N N' (Eval.ofExcept (checkCallDepth depth s.program.options.maxCallDepth))
      (Eval.ofExcept (checkCallDepth depth t.program.options.maxCallDepth)) := by
  cases hst with
  | same => exact Agreement.ofExcept _
  | raised hN =>
      rw [Scope.program_withLimit, hN]
      show RaisedRuns N N' _ (Eval.ofExcept (checkCallDepth depth N'))
      by_cases hs : depth < N
      · have ht : depth < N' := UInt32.lt_of_lt_of_le hs hle
        rw [checkCallDepth, checkCallDepth, if_pos hs, if_pos ht]
        exact .pure _
      · have hexcused : (Agreement.raising N N').excused (.raised (.recursionLimit N.toNat)) := rfl
        rw [checkCallDepth, if_neg hs]
        exact fun w v _ => .excused hexcused w _

/-- **Only the lower limit tells the two runs apart.** By induction on the nesting: both runs are
equally deep all the time. -/
theorem invokeAt_raised (hle : N ≤ N') (schema : Schema) (arrayLimit : Nat)
    {host : HostRef → List Value → Eval Value}
    (hhost : ∀ f args, RaisedRuns N N' (host f args) (host f args)) (nesting : Nat) (depth : UInt32)
    {s t : Scope} (hst : s.Raised N N' t) (args : List Value) :
    RaisedRuns N N' (invokeAt schema arrayLimit host nesting depth s args)
      (invokeAt schema arrayLimit host nesting depth t args) := by
  induction nesting generalizing depth s t args with
  | zero => exact .throw fun _ => trivial
  | succ nesting ih =>
      refine (RaisedRuns.depth hle hst depth).bind fun _ => ?_
      rw [hst.unit?]
      cases s.unit? with
      | none => exact Agreement.fail _
      | some u =>
          refine (Agreement.ofExcept _).bind fun _ => RaisedRuns.unit ?_ hst u args
          exact ⟨rfl, rfl, fun f xs => RaisedRuns.ofClosure fun _ _ hst' => ih _ hst' xs, hhost⟩

/-! ## Sessions -/

theorem RaisedRuns.hostCall {host : Host} (hhost : host.StaysOutside) (schema : Schema)
    (arrayLimit reentries : Nat) (f : HostRef) (args : List Value) :
    RaisedRuns N N' (hostCall schema arrayLimit host reentries f args)
      (hostCall schema arrayLimit host reentries f args) := by
  cases reentries <;>
  · refine Agreement.callWith fun heap calls => ?_
    obtain ⟨result, heap', hdone⟩ := hhost f args heap calls
    rw [hdone]
    exact Agreement.done (fun _ _ _ => trivial) heap'

/-- Requests to a program and to the program with a higher limit. -/
theorem RaisedRuns.answer {e : Environment} (hhost : e.host.StaysOutside) (hle : N ≤ N')
    {p : Program} (hp : p.options.maxCallDepth = N) (r : Request) :
    RaisedRuns N N' (e.answer p r) (e.answer (p.withLimit N') r) := by
  cases r with
  | instantiate => exact RaisedRuns.newClosure (.raised (.root p 0) hp)
  | invoke f args =>
      refine RaisedRuns.ofClosure fun s t hst => ?_
      exact invokeAt_raised hle e.schema e.arrayLimit
        (RaisedRuns.hostCall hhost e.schema e.arrayLimit e.reentries) callCeiling 0 hst args

/-- What one answer keeps, a session keeps. -/
theorem RaisedRuns.session {answer answer' : Request → Eval Value}
    (h : ∀ r, RaisedRuns N N' (answer r) (answer' r)) (requests : List Request) {w v : World}
    (hwv : w.Raised N N' v)
    (hlimit : .error (.raised (.recursionLimit N.toNat))
      ∉ (Session.run (requests.map answer) w).1) :
    (Session.run (requests.map answer') v).1 = (Session.run (requests.map answer) w).1 ∧
      (Session.run (requests.map answer) w).2.Raised N N'
        (Session.run (requests.map answer') v).2 := by
  induction requests generalizing w v with
  | nil => exact ⟨rfl, hwv⟩
  | cons r rs ih =>
      have hends := h r w v hwv
      simp only [List.map_cons, Session.run] at hlimit ⊢
      revert hlimit hends
      generalize answer r w = a
      generalize answer' r v = b
      rintro (⟨x, state⟩ | ⟨e, state⟩ | @⟨e, he, w', _⟩) hlimit
      · obtain ⟨hresults, hworld⟩ := ih state fun hmem => hlimit (List.mem_cons_of_mem _ hmem)
        exact ⟨congrArg (_ :: ·) hresults, hworld⟩
      · obtain ⟨hresults, hworld⟩ := ih state fun hmem => hlimit (List.mem_cons_of_mem _ hmem)
        exact ⟨congrArg (_ :: ·) hresults, hworld⟩
      · have heq : e = .raised (.recursionLimit N.toNat) := he
        exact absurd (by rw [heq]; exact List.mem_cons_self) hlimit

end Raised

/-- **Raising the limit changes nothing but the error of the limit.** A program and the same
program with a higher limit answer a session alike, from whatever state it starts, if the program
with the lower limit does not answer with the error of its limit: the results are the same, the same
calls of host functions are made, and the heap and all cells are the same in the end. -/
theorem session_raiseLimit {e : Environment} (hhost : e.host.StaysOutside) {options : Options}
    {limit : UInt32} (hle : options.maxCallDepth ≤ limit) {tree : Tree} {p : Program}
    (hp : Program.compile e.schema options tree = .ok p) :
    ∃ p', Program.compile e.schema { options with maxCallDepth := limit } tree = .ok p' ∧
      ∀ (w : World) (requests : List Request),
        .error (.raised (.recursionLimit options.maxCallDepth.toNat))
          ∉ (Session.run (requests.map (e.answer p)) w).1 →
        (Session.run (requests.map (e.answer p')) w).1
            = (Session.run (requests.map (e.answer p)) w).1 ∧
          (Session.run (requests.map (e.answer p)) w).2.Raised options.maxCallDepth limit
            (Session.run (requests.map (e.answer p')) w).2 := by
  obtain ⟨root, hroot, hp'⟩ := Program.ofLambda_of_compile hp
  refine ⟨p.withLimit limit, ?_, fun w requests hlimit => ?_⟩
  · rw [Program.compile, hroot]
    exact Program.ofLambda_withLimit hp' limit
  · have hoptions : p.options.maxCallDepth = options.maxCallDepth := by
      rw [Program.options_eq hp']
    exact RaisedRuns.session (RaisedRuns.answer hhost hle hoptions) requests (.refl _ _ w) hlimit

/-- A counter that is compiled with the limit 1 and with the greatest limit. -/
theorem session_raiseLimit_counter :
    let e : Environment := ⟨.empty, fun _ _ heap _ => .done (.ok .unit) heap, 1000, 0⟩
    ∃ p p', Program.compile .empty { maxCallDepth := 1 } (.ofLambda 0 Session.counter) = .ok p ∧
      Program.compile .empty { maxCallDepth := 4294967295 } (.ofLambda 0 Session.counter)
        = .ok p' ∧
      (Session.run (Session.twice.map (e.answer p)) {}).1.getLast? = some (.ok (.ofInt .i32 7)) ∧
      (Session.run (Session.twice.map (e.answer p')) {}).1
        = (Session.run (Session.twice.map (e.answer p)) {}).1 ∧
      (Session.run (Session.twice.map (e.answer p)) {}).2.Raised 1 4294967295
        (Session.run (Session.twice.map (e.answer p')) {}).2 := by
  intro e
  obtain ⟨p, hp, hlast, hok⟩ : ∃ p,
      Program.compile .empty { maxCallDepth := 1 } (.ofLambda 0 Session.counter) = .ok p ∧
      (Session.run (Session.twice.map (e.answer p)) {}).1.getLast? = some (.ok (.ofInt .i32 7)) ∧
      (Session.run (Session.twice.map (e.answer p)) {}).1.all (·.isOk) = true :=
    ⟨_, rfl, by decide +kernel, by decide +kernel⟩
  have hhost : e.host.StaysOutside := fun _ _ heap _ => ⟨.ok .unit, heap, rfl⟩
  have hmax : (1 : UInt32) ≤ 4294967295 := by decide
  obtain ⟨p', hp', hsame⟩ := session_raiseLimit hhost hmax hp
  obtain ⟨hresults, hworld⟩ := hsame {} Session.twice fun hmem => by
    have herror := List.all_eq_true.mp hok _ hmem
    cases herror
  exact ⟨p, p', hp, hp', hlast, hresults, hworld⟩

end ExprTree
