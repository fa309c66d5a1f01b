import ExprTree.Proofs.Sessions
import ExprTree.Proofs.Interleaving.SelfContained

set_option autoImplicit false

/-! # Interleaved histories

A host invokes the root closure of a program several times, and then works with what it got: it
invokes closures that came out, reads the parameters they captured, and overwrites them. The
operations that descend from one invocation of the root form a family. An operation names a closure
by the way to it, from an earlier answer to its own family.

If the program is self-contained, families do not interfere. Each family is given the same answers
as in the history from which all other families are removed (`families_do_not_interfere`). The
proof replays three histories side by side: the whole one, the one of the family, and the one of the
others. The two parts correspond to different cells of the whole, and stay apart.
-/

namespace ExprTree

/-! ## Histories -/

/-- The way to a value: the number of an answer, and then the positions of parts inside parts. -/
structure Handle where
  answer : Nat
  path : List Nat

/-- What a host can do with a program. -/
inductive Operation
  /-- An invocation of the root. -/
  | start (args : List Value)
  /-- An invocation of a closure that came out earlier. -/
  | invoke (f : Handle) (args : List Value)
  /-- Reads a parameter that a closure captured. -/
  | captured (f : Handle) (p : Nat)
  /-- Overwrites a parameter that a closure captured. -/
  | setCaptured (f : Handle) (p : Nat) (v : Value)

/-- The values that come with an operation. -/
def Operation.values : Operation → List Value
  | .start args | .invoke _ args => args
  | .captured .. => []
  | .setCaptured _ _ v => [v]

/-- What an operation is answered. -/
inductive Answer
  | result (r : Except (Stop RuntimeError) Value)
  | captured (v : Option Value)
  | stored (done : Bool)
  /-- The way leads to no closure. -/
  | unknown

/-- The value that came out, if there is one. -/
def Answer.value? : Answer → Option Value
  | .result (.ok v) => some v
  | .captured v => v
  | _ => none

namespace Value

/-- The function, if the value is one. -/
def function? : Value → Option FunctionRef
  | .function f => some f
  | _ => none

/-- The values that a host finds in a value. -/
def parts (heap : Heap) : Value → List Value
  | .array _ items => items
  | .list id => heap.listItems id
  | .object _ id => (heap.fields id).toList
  | .expression t => t.constants
  | _ => []

/-- The value at the end of a path. -/
def at? (heap : Heap) : (path : List Nat) → Value → Option Value
  | [], v => some v
  | i :: path, v => (v.parts heap)[i]?.bind (at? heap path)

end Value

/-- The closure that is found along the way. -/
def Handle.closure? (h : Handle) (answers : List Answer) (heap : Heap) : Option FunctionRef :=
  ((answers[h.answer]?.bind Answer.value?).bind (Value.at? heap h.path)).bind Value.function?

namespace Environment

/-- Invokes a closure. -/
def ask (e : Environment) (f : FunctionRef) (args : List Value) (w : World) : Answer × World :=
  let (r, w) := Session.outcome (e.invoke f args w)
  (.result r, w)

/-- Performs an operation of a family that got these answers so far. -/
def perform (e : Environment) (root : FunctionRef) (answers : List Answer) (w : World) :
    Operation → Answer × World
  | .start args => e.ask root args w
  | .invoke f args =>
      match f.closure? answers w.heap with
      | some f => e.ask f args w
      | none => (.unknown, w)
  | .captured f p =>
      match f.closure? answers w.heap with
      | some f => (.captured ((w.scope? f).bind (w.captured? · p)), w)
      | none => (.unknown, w)
  | .setCaptured f p v =>
      match f.closure? answers w.heap with
      | some f =>
          match (w.scope? f).bind (w.setCaptured? · p v) with
          | some w => (.stored true, w)
          | none => (.stored false, w)
      | none => (.unknown, w)

end Environment

/-- Operations in the order of time, each with the number of its family. -/
abbrev History := List (Nat × Operation)

/-- The world, and the answers that were given so far, each with the number of the family. -/
structure Replay where
  world : World
  log : List (Nat × Answer) := []

namespace Replay

/-- The answers to one family. -/
def answers (s : Replay) (family : Nat) : List Answer :=
  s.log.filterMap fun (d, a) => if d = family then some a else none

/-- Performs the next operation. -/
def step (e : Environment) (root : FunctionRef) (s : Replay) (o : Nat × Operation) : Replay :=
  let (answer, world) := e.perform root (s.answers o.1) s.world o.2
  ⟨world, s.log ++ [(o.1, answer)]⟩

/-- Performs all operations of a history. -/
def run (e : Environment) (root : FunctionRef) (s : Replay) (history : History) : Replay :=
  history.foldl (step e root) s

theorem answers_step (e : Environment) (root : FunctionRef) (s : Replay) (o : Nat × Operation)
    (family : Nat) :
    (s.step e root o).answers family = s.answers family ++
      if o.1 = family then [(e.perform root (s.answers o.1) s.world o.2).1] else [] := by
  simp only [step, answers, List.filterMap_append, List.filterMap_cons, List.filterMap_nil]
  split <;> simp_all

end Replay

/-! ## Answers of two runs -/

variable {base : Nat} {ρ σ : Correspondence base} {p : Program}

/-- The same answer, up to corresponding numbers. -/
inductive Answer.Alike (ρ : Correspondence base) : Answer → Answer → Prop
  | result {r r' : Except (Stop RuntimeError) Value} (h : SameOutcome (Value.Alike ρ) r r') :
      Answer.Alike ρ (.result r) (.result r')
  | captured {v v' : Option Value} (h : Option.Rel (Value.Alike ρ) v v') :
      Answer.Alike ρ (.captured v) (.captured v')
  | stored (done : Bool) : Answer.Alike ρ (.stored done) (.stored done)
  | unknown : Answer.Alike ρ .unknown .unknown

namespace Answer.Alike

variable {a a' : Answer}

theorem mono (hext : ρ.Extends σ) (h : a.Alike ρ a') : a.Alike σ a' := by
  cases h with
  | result h =>
      cases h with
      | ok hxy => exact .result (.ok (hxy.mono hext))
      | error e => exact .result (.error e)
  | captured h => exact .captured (optionRel_mono h fun _ _ hxy => hxy.mono hext)
  | stored done => exact .stored done
  | unknown => exact .unknown

theorem value? (h : a.Alike ρ a') : Option.Rel (Value.Alike ρ) a.value? a'.value? := by
  cases h with
  | result h =>
      cases h with
      | ok hxy => exact .some hxy
      | error e => exact .none
  | captured h => exact h
  | stored => exact .none
  | unknown => exact .none

end Answer.Alike

section Parts

variable {w v : World} {x y : Value}

theorem Value.Alike.parts (hwv : World.Alike ρ p w v) (h : x.Alike ρ y) :
    Value.AlikeAll ρ (x.parts w.heap) (y.parts v.heap) := by
  cases h with
  | scalar h =>
      cases x with
      | array | list | object | function | expression => cases h
      | _ => exact .nil
  | array _ length items => exact .ofZip length items
  | list id =>
      obtain ⟨hitems, hitems'⟩ := hwv.emptyLists _ _ id
      simp only [Value.parts, hitems, hitems']
      exact .nil
  | object id =>
      obtain ⟨fields, hfields, hw, hv⟩ := hwv.instances _ _ id
      simp only [Value.parts, Heap.fields, hw, hv, Option.getD_some]
      exact Value.alikeAll_scalars hfields
  | function => exact .nil
  | expression _ length constants => exact .ofZip length constants

theorem Value.Alike.at? (hwv : World.Alike ρ p w v) (path : List Nat) (h : x.Alike ρ y) :
    Option.Rel (Value.Alike ρ) (x.at? w.heap path) (y.at? v.heap path) := by
  induction path generalizing x y with
  | nil => exact .some h
  | cons i path ih =>
      exact optionRel_bind (getElem?_forall₂ (h.parts hwv) i) fun _ _ hab => ih hab

/-- The same way leads to corresponding closures. -/
theorem Handle.closure?_alike (hwv : World.Alike ρ p w v) {answers answers' : List Answer}
    (h : List.Forall₂ (Answer.Alike ρ) answers answers') (f : Handle) :
    Option.Rel (fun f g => ρ.closures.Rel f.id g.id) (f.closure? answers w.heap)
      (f.closure? answers' v.heap) := by
  have hvalue : Option.Rel (Value.Alike ρ) (answers[f.answer]?.bind Answer.value?)
      (answers'[f.answer]?.bind Answer.value?) :=
    optionRel_bind (getElem?_forall₂ h f.answer) fun _ _ ha => ha.value?
  have hend := optionRel_bind hvalue fun _ _ hab => hab.at? hwv f.path
  refine optionRel_bind hend fun a b hab => ?_
  cases hab with
  | function id => exact .some id
  | scalar h =>
      cases a with
      | function f => cases h
      | _ => exact .none
  | _ => exact .none

end Parts

/-! ## One operation -/

/-- An operation was performed in two worlds that are alike, the second of which was `v`. -/
def Performed (ρ : Correspondence base) (p : Program) (v : World) (x y : Answer × World) : Prop :=
  ∃ σ, Advances ρ σ v y.2 ∧ World.Alike σ p x.2 y.2 ∧ x.1.Alike σ y.1

section Perform

variable {e : Environment} {w v : World} {f g : FunctionRef} {args : List Value}

theorem Performed.same (hwv : World.Alike ρ p w v) {a a' : Answer} (h : a.Alike ρ a') :
    Performed ρ p v (a, w) (a', v) := ⟨ρ, .refl ρ v, hwv, h⟩

theorem Environment.ask_alike (hp : p.SelfContained base) (hwv : World.Alike ρ p w v)
    (hfg : ρ.closures.Rel f.id g.id) (hargs : ∀ x ∈ args, x.isScalar = true) :
    Performed ρ p v (e.ask f args w) (e.ask g args v) := by
  have hrun := e.invoke_alike hp hfg (Value.alikeAll_scalars hargs) ρ (.refl ρ) w v ⟨hwv, .nil⟩
  unfold Environment.ask
  revert hrun
  generalize e.invoke f args w = r
  generalize e.invoke g args v = r'
  rintro (@⟨σ, w', v', a, b, step, state, hab⟩ | @⟨σ, w', v', step, state, err⟩)
  · exact ⟨σ, step, state.world, .result (.ok hab)⟩
  · exact ⟨σ, step, state.world, .result (.error err)⟩

theorem World.Alike.scope? (hwv : World.Alike ρ p w v) (hfg : ρ.closures.Rel f.id g.id) :
    ∃ s s', w.scope? f = some s ∧ v.scope? g = some s' ∧ s.Alike ρ p s' :=
  hwv.closures _ _ hfg

theorem Environment.perform_alike (hp : p.SelfContained base) (hwv : World.Alike ρ p w v)
    {root : FunctionRef} (hroot : ρ.closures.Rel root.id root.id) {answers answers' : List Answer}
    (h : List.Forall₂ (Answer.Alike ρ) answers answers') {o : Operation}
    (ho : ∀ x ∈ o.values, x.isScalar = true) :
    Performed ρ p v (e.perform root answers w o) (e.perform root answers' v o) := by
  cases o with
  | start args => exact Environment.ask_alike hp hwv hroot ho
  | invoke f args =>
      simp only [Environment.perform]
      rcases optionRel_cases (f.closure?_alike hwv h) with ⟨hf, hg⟩ | ⟨f', g', hf, hg, hfg⟩
      · rw [hf, hg]
        exact .same hwv .unknown
      · rw [hf, hg]
        exact Environment.ask_alike hp hwv hfg ho
  | captured f q =>
      simp only [Environment.perform]
      rcases optionRel_cases (f.closure?_alike hwv h) with ⟨hf, hg⟩ | ⟨f', g', hf, hg, hfg⟩
      · rw [hf, hg]
        exact .same hwv .unknown
      · obtain ⟨s, s', hs, hs', hss⟩ := hwv.scope? hfg
        rw [hf, hg]
        simp only [hs, hs', Option.bind_some]
        exact .same hwv (.captured (hwv.captured? hss q))
  | setCaptured f q x =>
      simp only [Environment.perform]
      rcases optionRel_cases (f.closure?_alike hwv h) with ⟨hf, hg⟩ | ⟨f', g', hf, hg, hfg⟩
      · rw [hf, hg]
        exact .same hwv .unknown
      · obtain ⟨s, s', hs, hs', hss⟩ := hwv.scope? hfg
        have hx : x.Alike ρ x := .scalar (ho x List.mem_cons_self)
        rw [hf, hg]
        simp only [hs, hs', Option.bind_some]
        rcases optionRel_cases (hwv.setCaptured? hss q hx) with
          ⟨hw, hv⟩ | ⟨w', v', hw, hv, hstep, hwv'⟩
        · rw [hw, hv]
          exact .same hwv (.stored false)
        · rw [hw, hv]
          exact ⟨ρ, hstep, hwv', .stored true⟩

end Perform

/-! ## Whole histories -/

/-- The replay `s` of a part of the history is like the replay `t` of all of it, as far as the
families in `kept` are concerned. -/
structure Replay.Alike (ρ : Correspondence base) (p : Program) (root : FunctionRef)
    (kept : Nat → Bool) (s t : Replay) : Prop where
  world : World.Alike ρ p s.world t.world
  root : ρ.closures.Rel root.id root.id
  answers : ∀ d, kept d = true → List.Forall₂ (Answer.Alike ρ) (s.answers d) (t.answers d)

/-- No cell of the whole corresponds to cells on both sides. -/
def Apart (ρ σ : Correspondence base) : Prop := ∀ i i' j, ρ.cells.Rel i j → ¬ σ.cells.Rel i' j

namespace Apart

theorem symm (h : Apart ρ σ) : Apart σ ρ := fun i i' j hij hij' => h i' i j hij' hij

/-- What starts to correspond on one side was not there before. -/
theorem advance {τ : Correspondence base} {v v' : World} {n : Nat} (h : Apart ρ σ)
    (hstep : Advances σ τ v v') (hbelow : ρ.cells.Below n v.cells.size) : Apart ρ τ := by
  intro i i' j hij hij'
  have hlt := (hbelow i j hij).2
  rcases hstep.new i' j hij' with hold | hle
  · exact h i i' j hij hold
  · omega

end Apart

namespace Replay.Alike

variable {e : Environment} {root : FunctionRef} {kept : Nat → Bool} {s t u : Replay}

/-- Both replays perform an operation of a family that is kept. -/
theorem step (hp : p.SelfContained base) (h : Replay.Alike ρ p root kept s t)
    {o : Nat × Operation} (hkept : kept o.1 = true) (ho : ∀ x ∈ o.2.values, x.isScalar = true) :
    ∃ σ, Advances ρ σ t.world (t.step e root o).world ∧
      Replay.Alike σ p root kept (s.step e root o) (t.step e root o) := by
  obtain ⟨σ, hstep, hworld, hanswer⟩ :=
    Environment.perform_alike (e := e) hp h.world h.root (h.answers o.1 hkept) ho
  have hext := hstep.correspondence
  refine ⟨σ, hstep, hworld, hext.closures _ _ h.root, fun d hd => ?_⟩
  have hold : List.Forall₂ (Answer.Alike σ) (s.answers d) (t.answers d) :=
    (h.answers d hd).imp fun _ _ ha => ha.mono hext
  rw [answers_step, answers_step]
  refine List.rel_append hold ?_
  split
  · exact .cons hanswer .nil
  · exact .nil

/-- The whole goes on with an operation of a family that is not kept, in cells that are apart. -/
theorem idle {σ τ : Correspondence base} (h : Replay.Alike ρ p root kept s t)
    {o : Nat × Operation} (hkept : kept o.1 = false)
    (hstep : Advances σ τ t.world (t.step e root o).world) (hapart : Apart ρ σ) :
    Replay.Alike ρ p root kept s (t.step e root o) := by
  refine ⟨h.world.frame hstep hapart, h.root, fun d hd => ?_⟩
  have hne : o.1 ≠ d := by
    rintro rfl
    rw [hkept] at hd
    cases hd
  rw [answers_step, if_neg hne, List.append_nil]
  exact h.answers d hd

/-- **The replay of a part is like the replay of the whole.** By induction on the history. The
other part is replayed as well: it accounts for the steps of the whole in which the first part is
idle. -/
theorem run (hp : p.SelfContained base) (history : History)
    (hvalues : ∀ o ∈ history, ∀ x ∈ o.2.values, x.isScalar = true)
    (hs : Replay.Alike ρ p root kept s t) (hu : Replay.Alike σ p root (fun d => !kept d) u t)
    (hapart : Apart ρ σ) :
    ∃ τ : Correspondence base, Replay.Alike τ p root kept
      (s.run e root (history.filter fun o => kept o.1)) (t.run e root history) := by
  induction history generalizing ρ σ s t u with
  | nil => exact ⟨ρ, hs⟩
  | cons o history ih =>
      have ho := hvalues o List.mem_cons_self
      have hrest : ∀ o' ∈ history, ∀ x ∈ o'.2.values, x.isScalar = true :=
        fun o' ho' => hvalues o' (List.mem_cons_of_mem o ho')
      cases hk : kept o.1 with
      | true =>
          obtain ⟨ρ', hstep, hs'⟩ := hs.step (e := e) hp hk ho
          have hu' := hu.idle (by simp [hk]) hstep hapart.symm
          have hapart' := (hapart.symm.advance hstep hu.world.cells_below).symm
          have hfilter : (o :: history).filter (fun o => kept o.1)
              = o :: history.filter (fun o => kept o.1) := List.filter_cons_of_pos hk
          rw [hfilter]
          exact ih hrest hs' hu' hapart'
      | false =>
          obtain ⟨σ', hstep, hu'⟩ := hu.step (e := e) hp (by simp [hk]) ho
          have hs' := hs.idle hk hstep hapart
          have hapart' := hapart.advance hstep hs.world.cells_below
          have hfilter : (o :: history).filter (fun o => kept o.1)
              = history.filter (fun o => kept o.1) := List.filter_cons_of_neg (by simp [hk])
          rw [hfilter]
          exact ih hrest hs' hu' hapart'

end Replay.Alike

/-! ## Main result -/

/-- Only what is older than both runs corresponds. -/
def Correspondence.start (n : Nat) : Correspondence n :=
  ⟨.none, .none, .none, .none, .diagonal n, fun _ hi => ⟨hi, rfl⟩⟩

theorem World.Alike.start (w : World) :
    World.Alike (Correspondence.start w.heap.nextId) p w w where
  closures := nofun
  cells := nofun
  lists := nofun
  instances := nofun
  ids := fun _ _ ⟨hlt, heq⟩ => ⟨hlt, heq ▸ hlt⟩

/-- A new closure of the root is the same on both sides, and nothing else is shared. -/
theorem Replay.Alike.start {w w₀ : World} {root : FunctionRef}
    (h : p.instantiate w = .ok (.function root) w₀) :
    ∃ ρ : Correspondence w.heap.nextId, Apart ρ ρ ∧
      ∀ kept, Replay.Alike ρ p root kept ⟨w₀, []⟩ ⟨w₀, []⟩ := by
  obtain ⟨ρ, hstep, hworld, hvalue⟩ :=
    (World.Alike.start (p := p) w).newClosure (.root (p := p) 0)
  cases h
  refine ⟨ρ, fun i i' j hij _ => ?_, fun kept => ⟨hworld, ?_, fun _ _ => .nil⟩⟩
  · have hlt : j < w.cells.size := (hworld.cells_below i j hij).2
    rcases hstep.new i j hij with hnone | hle
    · exact hnone
    · omega
  · cases hvalue with
    | scalar h => cases h
    | function id => exact id

/-- **Invocations do not interfere.** Let a root lambda be compiled that uses no host function,
member or constructor and whose constants refer to no list, instance or function. In every history
of operations with scalar values, the operations that descend from one invocation of the root are
answered as in the history from which all others are removed, up to the numbers of closures, cells,
lists, instances, arrays and nodes; and what these numbers stand for is the same in the end. -/
theorem families_do_not_interfere {e : Environment} {options : Options} {tree : Tree}
    {p : Program} {root : FunctionRef} {w w₀ : World}
    (hcompile : Program.compile e.schema options tree = .ok p)
    (htree : SelfContainedEvents w.heap.nextId tree.walk)
    (hroot : p.instantiate w = .ok (.function root) w₀) (history : History)
    (hvalues : ∀ o ∈ history, ∀ x ∈ o.2.values, x.isScalar = true) (family : Nat) :
    let alone := Replay.run e root ⟨w₀, []⟩ (history.filter fun o => o.1 == family)
    let together := Replay.run e root ⟨w₀, []⟩ history
    ∃ ρ : Correspondence w.heap.nextId,
      List.Forall₂ (Answer.Alike ρ) (alone.answers family) (together.answers family) ∧
      World.Alike ρ p alone.world together.world := by
  have hp := Program.selfContained_of_compile hcompile htree
  obtain ⟨ρ, hapart, hstart⟩ := Replay.Alike.start hroot
  obtain ⟨σ, hend⟩ := Replay.Alike.run (e := e) hp history hvalues (hstart (· == family))
    (hstart _) hapart
  exact ⟨σ, hend.answers family (beq_self_eq_true family), hend.world⟩

/-- Two counters, from 5 and from 100. Each is invoked, the first one twice, and in between the
other one is overwritten. -/
def History.twoCounters : History :=
  [(0, .start [.ofInt .i32 5]), (1, .start [.ofInt .i32 100]), (0, .invoke ⟨0, []⟩ []),
    (1, .setCaptured ⟨0, []⟩ 0 (.ofInt .i32 41)), (1, .invoke ⟨0, []⟩ []),
    (0, .invoke ⟨0, []⟩ []), (0, .captured ⟨0, []⟩ 0)]

deriving instance DecidableEq for FunctionRef

instance decidableEqFunction (f : FunctionRef) : (v : Value) → Decidable (v = .function f)
  | .function g => decidable_of_iff (g = f) (by simp)
  | .null | .unit | .bool _ | .char _ | .int .. | .f32 _ | .f64 _ | .string _ | .array .. | .list _
  | .object .. | .expression _ => .isFalse nofun

instance decidableEqResult (r : Except (Stop RuntimeError) Value) [∀ x, Decidable (x = r)] :
    (a : Answer) → Decidable (a = .result r)
  | .result x => decidable_of_iff (x = r) (by simp)
  | .captured _ | .stored _ | .unknown => .isFalse nofun

instance decidableEqCaptured (v : Option Value) [∀ x, Decidable (x = v)] :
    (a : Answer) → Decidable (a = .captured v)
  | .captured x => decidable_of_iff (x = v) (by simp)
  | .result _ | .stored _ | .unknown => .isFalse nofun

theorem families_do_not_interfere_counters :
    let e : Environment := ⟨.empty, Native.host .empty 0 #[], 1000, 0⟩
    ∃ p root w₀, Program.compile .empty {} (.ofLambda 0 Session.counter) = .ok p ∧
      p.instantiate { heap := { nextId := 8 } } = .ok (.function root) w₀ ∧
      (Replay.run e root ⟨w₀, []⟩ History.twoCounters).answers 0
        = [.result (.ok (.function ⟨1, ⟨[], .int .i32⟩, none⟩)), .result (.ok (.ofInt .i32 6)),
            .result (.ok (.ofInt .i32 7)), .captured (some (.ofInt .i32 7))] ∧
      ∃ ρ : Correspondence 8,
        List.Forall₂ (Answer.Alike ρ)
          ((Replay.run e root ⟨w₀, []⟩ (History.twoCounters.filter fun o => o.1 == 0)).answers 0)
          ((Replay.run e root ⟨w₀, []⟩ History.twoCounters).answers 0) := by
  intro e
  have htree : SelfContainedEvents 8 (Node.ofLambda 0 Session.counter).walk :=
    .ofScalars rfl rfl rfl
  have hvalues : ∀ o ∈ History.twoCounters, ∀ x ∈ o.2.values, x.isScalar = true := by
    have hall : History.twoCounters.all (fun o => o.2.values.all (·.isScalar)) = true := rfl
    exact fun o ho x hx => List.all_eq_true.mp (List.all_eq_true.mp hall o ho) x hx
  refine ⟨_, _, _, rfl, rfl, by decide +kernel, ?_⟩
  obtain ⟨ρ, hsame, -⟩ := families_do_not_interfere (e := e) (w := { heap := { nextId := 8 } }) rfl
    htree rfl History.twoCounters hvalues 0
  exact ⟨ρ, hsame⟩

end ExprTree
