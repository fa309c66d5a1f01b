import ExprTree.Proofs.HostCalls

set_option autoImplicit false

/-! # Calls of host functions in order

`Node.callSites` lists the places in a tree where a host function is called, in the order of
evaluation; a place knows the node that it belongs to. Every operand is evaluated at most once and
in its turn: an invocation goes through a sublist of these places, whether it succeeds or fails, and
calls the function of each; and a successful invocation of a tree without branches goes through the
whole list (`invocation_calls_in_order`). Trees that invoke functions are left out, since what these
call is not listed in the tree.
-/

namespace ExprTree

/-! ## Call sites -/

/-- A place where a host function is called. -/
structure CallSite where
  /-- The identity of the node. -/
  node : Nat
  callee : HostRef
deriving DecidableEq

/-- Where reading a member calls. -/
def Member.readSites (id : Nat) : Member → List CallSite
  | .property _ getter _ => [⟨id, getter.impl⟩]
  | .field .. | .static .. => []

/-- Where storing into a member calls. -/
def Member.writeSites (id : Nat) : Member → List CallSite
  | .property _ _ (some setter) => [⟨id, setter.impl⟩]
  | .property _ _ none | .field .. | .static .. => []

/-- The method of a node, unless nodes of its kind have no use for a method. -/
def methodSites (id : Nat) (kind : Kind) (method : Option Method) : List CallSite :=
  if kind = .typeAs || kind = .arrayIndex || kind = .coalesce then []
  else (method.map fun m => ⟨id, m.impl⟩).toList

/-- The operator by which a user-defined `&&` or `||` decides its result early. -/
def truthSites (schema : Schema) (id : Nat) (kind : Kind) (left : Ty) (method : Option Method) :
    List CallSite :=
  if (kind = .andAlso || kind = .orElse) && method.isSome then
    ((left.record?.bind schema.truth?).map fun ops =>
      ⟨id, (if kind = .andAlso then ops.isFalse else ops.isTrue).impl⟩).toList
  else []

theorem truthSites_of_ne {schema : Schema} {id : Nat} {kind : Kind} {left : Ty}
    {method : Option Method} (ha : kind ≠ .andAlso) (ho : kind ≠ .orElse) :
    truthSites schema id kind left method = [] := by
  simp [truthSites, ha, ho]

mutual

/-- The places in a tree where a host function is called, in the order of evaluation. -/
def Node.callSites (schema : Schema) : Tree → List CallSite
  | .mk id kind _ payload => Payload.callSites schema id kind payload

/-- The places in a node of that kind. A quoted tree and the body of a lambda are not evaluated;
neither are the target of a static member or method and the arguments of a default value. -/
def Payload.callSites (schema : Schema) (id : Nat) (kind : Kind) : Payload Value → List CallSite
  | .constant _ | .parameter _ | .lambda _ => []
  | .unary x method _ =>
      if kind = .quote then [] else Node.callSites schema x ++ methodSites id kind method
  | .binary l r method _ _ _ =>
      Node.callSites schema l ++ (truthSites schema id kind l.ty method ++
        (Node.callSites schema r ++ methodSites id kind method))
  | .conditional t a b =>
      Node.callSites schema t ++ (Node.callSites schema a ++ Node.callSites schema b)
  | .memberAccess none m => m.readSites id
  | .memberAccess (some x) m =>
      (if m.isStatic then [] else Node.callSites schema x) ++ m.readSites id
  | .call none m args => Node.callSitesAll schema args ++ [⟨id, m.impl⟩]
  | .call (some x) m args =>
      (if m.isStatic then [] else Node.callSites schema x) ++
        (Node.callSitesAll schema args ++ [⟨id, m.impl⟩])
  | .new none _ => []
  | .new (some c) args => Node.callSitesAll schema args ++ [⟨id, c.impl⟩]
  | .newArray items => Node.callSitesAll schema items
  | .listInit x inits => Node.callSites schema x ++ ElementInit.callSitesAll schema id inits
  | .memberInit x bindings =>
      Node.callSites schema x ++ MemberBinding.callSitesAll schema id bindings
  | .invoke x args => Node.callSites schema x ++ Node.callSitesAll schema args
  | .typeIs x _ => Node.callSites schema x
  | .assign _ x => Node.callSites schema x
  | .block items => Node.callSitesAll schema items

/-- The places in several trees. -/
def Node.callSitesAll (schema : Schema) : List Tree → List CallSite
  | [] => []
  | n :: ns => Node.callSites schema n ++ Node.callSitesAll schema ns

/-- The places in list initialisers of a node: the arguments first, then the `add` method. -/
def ElementInit.callSitesAll (schema : Schema) (id : Nat) : List (ElementInit Value) → List CallSite
  | [] => []
  | .mk add args :: rest =>
      (Node.callSitesAll schema args ++ [⟨id, add.impl⟩]) ++
        ElementInit.callSitesAll schema id rest

/-- The places in bindings of a node: a value comes before the setter, a getter before what is bound
inside. -/
def MemberBinding.callSitesAll (schema : Schema) (id : Nat) :
    List (MemberBinding Value) → List CallSite
  | [] => []
  | .assign m x :: rest =>
      (Node.callSites schema x ++ m.writeSites id) ++ MemberBinding.callSitesAll schema id rest
  | .bind m nested :: rest =>
      (m.readSites id ++ MemberBinding.callSitesAll schema id nested) ++
        MemberBinding.callSitesAll schema id rest
  | .list m inits :: rest =>
      (m.readSites id ++ ElementInit.callSitesAll schema id inits) ++
        MemberBinding.callSitesAll schema id rest

end

/-! ## Trees that stay in their frame -/

section Conditions

variable {α : Type}

/-- The content leads to an invocation: it invokes a function, or it converts by a lambda. -/
def Payload.invokes : Payload α → Bool
  | .invoke .. => true
  | .binary _ _ _ _ _ conversion => conversion.isSome
  | _ => false

/-- An operator or a conversion that its method carries out, unless an operand is missing. -/
def Payload.isLiftedMethod : Payload α → Bool
  | .unary _ method lifted => method.isSome && lifted
  | .binary _ _ method lifted _ _ => method.isSome && lifted
  | _ => false

/-- Whether evaluating a node may leave out a part of it. -/
def Node.branches (n : Node α) : Bool :=
  n.kind = .conditional || n.kind = .coalesce || n.kind = .andAlso || n.kind = .orElse ||
    n.payload.isLiftedMethod

theorem Node.branches_eq_false {n : Node α} :
    n.branches = false ↔ (n.kind ≠ .conditional ∧ n.kind ≠ .coalesce ∧ n.kind ≠ .andAlso ∧
      n.kind ≠ .orElse) ∧ n.payload.isLiftedMethod = false := by
  simp [Node.branches, and_assoc]

/-- The part of a tree with these events invokes no function; with `exact`, it has no branches
either. -/
structure CallsInPlace (exact : Bool) (es : List (Event α)) : Prop where
  direct : ∀ n, .node n ∈ es → n.payload.invokes = false
  straight : exact = true → ∀ n, .node n ∈ es → n.branches = false

namespace CallsInPlace

variable {exact : Bool} {es es' : List (Event α)} {e : Event α}

theorem mono (h : CallsInPlace exact es) (hsub : es' ⊆ es) : CallsInPlace exact es' :=
  ⟨fun n hn => h.direct n (hsub hn), fun he n hn => h.straight he n (hsub hn)⟩

theorem left (h : CallsInPlace exact (es ++ es')) : CallsInPlace exact es :=
  h.mono (List.subset_append_left es es')

theorem right (h : CallsInPlace exact (es ++ es')) : CallsInPlace exact es' :=
  h.mono (List.subset_append_right es es')

theorem tail (h : CallsInPlace exact (e :: es)) : CallsInPlace exact es :=
  h.mono (List.subset_cons_self e es)

variable {n : Node α}

theorem direct_self (h : CallsInPlace exact (.node n :: es)) : n.payload.invokes = false :=
  h.direct n List.mem_cons_self

theorem straight_self (h : CallsInPlace exact (.node n :: es)) (he : exact = true) :
    n.branches = false := h.straight he n List.mem_cons_self

theorem inexact (h : CallsInPlace exact (.node n :: es)) (hb : n.branches = true) :
    exact = false :=
  Bool.eq_false_iff.mpr fun he => Bool.false_ne_true ((h.straight_self he).symm.trans hb)

end CallsInPlace

end Conditions

/-! ## Making calls in order -/

section Makes

variable {σ β γ : Type}

/-- The computation goes through these places in this order and calls the function of each. It may
leave some of them out, unless it succeeds and has to be `exact`. -/
def Makes (calls : σ → List CallRecord) (exact : Bool) (sites : List CallSite)
    (x : EStateM (Stop RuntimeError) σ β) : Prop :=
  Records calls (fun ok made => ∃ used : List CallSite, used.Sublist sites ∧
    used.map (·.callee) = made.map (·.callee) ∧ (exact = true → ok = true → used = sites)) x

namespace Makes

variable {calls : σ → List CallRecord} {exact : Bool} {sites sites' : List CallSite}
  {x : EStateM (Stop RuntimeError) σ β} {k : β → EStateM (Stop RuntimeError) σ γ}

theorem quiet (h : Quiet calls x) : Makes calls exact [] x := by
  refine Records.mono h fun ok made hmade => ?_
  subst hmade
  exact ⟨[], List.nil_sublist _, rfl, fun _ _ => rfl⟩

theorem bind (hx : Makes calls exact sites x) (hk : ∀ a, Makes calls exact sites' (k a)) :
    Makes calls exact (sites ++ sites') (x >>= k) := by
  refine Records.bind hx hk ?_ ?_
  · rintro ok made made' ⟨used, hsub, hcalls, hall⟩ ⟨used', hsub', hcalls', hall'⟩
    refine ⟨used ++ used', hsub.append hsub', ?_, fun he hok => ?_⟩
    · rw [List.map_append, List.map_append, hcalls, hcalls']
    · rw [hall he rfl, hall' he hok]
  · rintro made ⟨used, hsub, hcalls, -⟩
    exact ⟨used, hsub.trans (List.sublist_append_left _ _), hcalls,
      fun _ hok => absurd hok Bool.false_ne_true⟩

/-- What comes before the calls makes none. -/
theorem after (hx : Quiet calls x) (hk : ∀ a, Makes calls exact sites (k a)) :
    Makes calls exact sites (x >>= k) := (quiet hx).bind hk

/-- What comes after the calls makes none. -/
theorem before (hx : Makes calls exact sites x) (hk : ∀ a, Quiet calls (k a)) :
    Makes calls exact sites (x >>= k) := by
  have h := hx.bind fun a => quiet (hk a)
  rwa [List.append_nil] at h

/-- Unless the calls have to be exact, there may be fewer of them. -/
theorem fewer (hx : Makes calls exact sites x) (hsub : sites.Sublist sites')
    (he : exact = false) : Makes calls exact sites' x := by
  refine Records.mono hx ?_
  rintro ok made ⟨used, hused, hcalls, -⟩
  refine ⟨used, hused.trans hsub, hcalls, fun h => ?_⟩
  rw [he] at h
  cases h

/-- Nothing is called where nothing has to be. -/
theorem skipped (hx : Quiet calls x) (h : exact = true → sites = []) :
    Makes calls exact sites x := by
  refine Records.mono hx fun ok made hmade => ?_
  subst hmade
  exact ⟨[], List.nil_sublist _, rfl, fun he _ => (h he).symm⟩

theorem skippedIf (he : exact = false) (hx : Quiet calls x) : Makes calls exact sites x :=
  skipped hx fun h => absurd (he.symm.trans h) Bool.false_ne_true

theorem throw (e : Stop RuntimeError) :
    Makes calls exact sites (MonadExcept.throw e : EStateM (Stop RuntimeError) σ β) := fun _ =>
  .error e [] rfl ⟨[], List.nil_sublist _, rfl, fun _ hok => absurd hok Bool.false_ne_true⟩

theorem ofEval {x : Eval β} (h : Makes World.calls exact sites x) :
    Makes Machine.calls exact sites (Exec.ofEval x) := Records.ofEval h

end Makes

/-- A host function is called. -/
theorem Context.CallsOnce.makes {cx : Context} (h : cx.CallsOnce) {exact : Bool} (site : CallSite)
    (args : List Value) : Makes World.calls exact [site] (cx.host site.callee args) := by
  refine Records.mono (h site.callee args) ?_
  rintro ok made ⟨heap, rfl⟩
  exact ⟨[site], List.Sublist.refl _, rfl, fun _ _ => rfl⟩

end Makes

/-! ## Members and operators -/

section Operators

variable {cx : Context} {exact : Bool} {id : Nat}

theorem Context.CallsOnce.readMember (h : cx.CallsOnce) (m : Member) (target : Value) :
    Makes World.calls exact (m.readSites id) (cx.readMember m target) := by
  cases m with
  | field name index ty =>
      exact .quiet ((Quiet.evalExcept _).bind fun id => .withState fun w => .ok _ [] rfl rfl)
  | static name ty cell => exact .quiet (.withState fun w => .ok _ [] rfl rfl)
  | property name getter setter =>
      simp only [Context.readMember, Member.readSites]
      split
      · exact h.makes ⟨id, _⟩ _
      · exact .after (.evalExcept _) fun _ => h.makes ⟨id, _⟩ _

theorem Context.CallsOnce.writeMember (h : cx.CallsOnce) (m : Member) (target v : Value) :
    Makes World.calls exact (m.writeSites id) (cx.writeMember m target v) := by
  cases m with
  | field name index ty =>
      refine .quiet ((Quiet.evalExcept _).bind fun id => .withState fun w => ?_)
      cases w.heap.setField? id index v with
      | none => exact .error _ [] rfl rfl
      | some heap => exact .ok _ [] rfl rfl
  | static name ty cell => exact .quiet fun w => .ok _ [] rfl rfl
  | property name getter setter =>
      cases setter with
      | none => exact .quiet (.pure _)
      | some setter =>
          simp only [Context.writeMember, Member.writeSites]
          split
          · exact (h.makes ⟨id, _⟩ _).before fun _ => .pure _
          · exact .after (.evalExcept _) fun _ => (h.makes ⟨id, _⟩ _).before fun _ => .pure _

/-- Where an action on one operand calls. -/
def UnaryAction.sites (id : Nat) : UnaryAction → List CallSite
  | .user m => [⟨id, m.impl⟩]
  | .primitive _ | .convert _ | .typeAs _ | .typeIs _ => []

/-- Where an action on two operands calls. -/
def BinaryAction.sites (id : Nat) : BinaryAction → List CallSite
  | .user m => [⟨id, m.impl⟩]
  | .primitive _ | .element => []

/-- An action on one operand, unless the operand is missing. -/
theorem Context.CallsOnce.unary (h : cx.CallsOnce) {action : UnaryAction} {lift : Bool}
    (hskip : exact = true → lift = true → action.sites id = []) (v : Value) :
    Makes Machine.calls exact (action.sites id)
      (if lift && v.isNull then pure .null else Exec.ofEval (cx.unary action v)) := by
  split
  · rename_i hnull
    exact .skipped (.pure _) fun he => hskip he (Bool.and_eq_true_iff.mp hnull).1
  · refine .ofEval ?_
    cases action with
    | user m => exact h.makes ⟨id, _⟩ _
    | _ => exact .quiet (.unary cx (fun _ => UnaryAction.noConfusion) v)

/-- An action on two operands. -/
theorem Context.CallsOnce.binary (h : cx.CallsOnce) (action : BinaryAction) (l r : Value) :
    Makes Machine.calls exact (action.sites id) (Exec.ofEval (cx.binary action l r)) := by
  refine .ofEval ?_
  cases action with
  | user m => exact h.makes ⟨id, _⟩ _
  | _ => exact .quiet (.binary cx (fun _ => BinaryAction.noConfusion) l r)

/-! ### Forms of nodes with two operands -/

namespace BinaryForm

/-- What is called between the operands. -/
def testSites (id : Nat) : BinaryForm → List CallSite
  | .userShortCircuit test _ _ => [⟨id, test.impl⟩]
  | .strict .. | .kleene _ | .shortCircuit .. => []

/-- What is called after both operands. -/
def lastSites (id : Nat) : BinaryForm → List CallSite
  | .strict action _ => action.sites id
  | .userShortCircuit _ method _ => [⟨id, method.impl⟩]
  | .kleene _ | .shortCircuit .. => []

/-- Whether a call may be left out. -/
def skips : BinaryForm → Bool
  | .strict (.user _) onNull => onNull.isSome
  | .strict (.primitive _) _ | .strict .element _ => false
  | .kleene _ => false
  | .shortCircuit .. | .userShortCircuit .. => true

theorem makes (h : cx.CallsOnce) {f : Frame} {left right : Code} {L R : List CallSite}
    (hl : Makes Machine.calls exact L (left.run cx f))
    (hr : Makes Machine.calls exact R (right.run cx f)) (form : BinaryForm)
    (hskip : exact = true → form.skips = false) :
    Makes Machine.calls exact (L ++ (form.testSites id ++ (R ++ form.lastSites id)))
      ((form.code left right).run cx f) := by
  cases form with
  | strict action onNull =>
      simp only [code, Code.run]
      refine hl.bind fun l => hr.bind fun r => ?_
      cases onNull with
      | none => exact h.binary action l r
      | some n =>
          simp only
          split
          · refine .skipped (.pure _) fun he => ?_
            cases action with
            | user m => exact Bool.noConfusion (hskip he)
            | _ => rfl
          · exact h.binary action l r
  | kleene conjunction =>
      simp only [code, Code.run, testSites, lastSites, List.append_nil, List.nil_append]
      refine hl.bind fun l => .after (.execExcept _) fun l => ?_
      exact hr.before fun r => (Quiet.execExcept _).bind fun r => .pure _
  | shortCircuit decisive lifted =>
      have he : exact = false := Bool.eq_false_iff.mpr fun he => Bool.noConfusion (hskip he)
      simp only [code, Code.run, testSites, lastSites, List.append_nil, List.nil_append]
      refine hl.bind fun v => ?_
      split
      · refine .after (.execExcept _) fun b => ?_
        cases b with
        | some l =>
            simp only
            split
            · exact .skippedIf he (.pure _)
            · exact hr
        | none =>
            refine hr.before fun r => (Quiet.execExcept _).bind fun b => ?_
            cases b with
            | none => exact .pure _
            | some r =>
                simp only
                split
                · exact .pure _
                · exact .pure _
      · refine .after (.execExcept _) fun l => ?_
        split
        · exact .skippedIf he (.pure _)
        · exact hr
  | userShortCircuit test method lifted =>
      have he : exact = false := Bool.eq_false_iff.mpr fun he => Bool.noConfusion (hskip he)
      simp only [code, Code.run]
      refine hl.bind fun l => ?_
      split
      · exact .skippedIf he (.pure _)
      · refine (Makes.ofEval (h.makes ⟨id, _⟩ _)).bind fun t => ?_
        refine .after (.execExcept _) fun decided => ?_
        split
        · exact .skippedIf he (.pure _)
        · refine hr.bind fun r => ?_
          split
          · exact .skippedIf he (.pure _)
          · exact .ofEval (h.makes ⟨id, _⟩ _)

end BinaryForm

/-! ### What is chosen for a node -/

variable {schema : Schema} {kind : Kind} {ty operand : Ty} {method : Option Method}
  {lifted : Bool}

theorem methodSites_of_isUnary (hk : kind.isUnary = true) (ht : kind ≠ .typeAs) :
    methodSites id kind method = (method.map fun m => ⟨id, m.impl⟩).toList := by
  have hi : kind ≠ .arrayIndex := by rintro rfl; cases hk
  have hc : kind ≠ .coalesce := by rintro rfl; cases hk
  simp [methodSites, ht, hi, hc]

theorem methodSites_of_isBinary (hk : kind.isBinary = true) (hc : kind ≠ .coalesce)
    (hi : kind ≠ .arrayIndex) :
    methodSites id kind method = (method.map fun m => ⟨id, m.impl⟩).toList := by
  have ht : kind ≠ .typeAs := by rintro rfl; cases hk
  simp [methodSites, ht, hi, hc]

@[simp] theorem methodSites_none : methodSites id kind none = [] := by simp [methodSites]

namespace UnaryAction.Chosen

variable {action : UnaryAction} {lift : Bool}

theorem sites_eq (h : Chosen kind ty lifted method action lift) :
    action.sites id = methodSites id kind method := by
  cases h with
  | typeAs _ hk => rw [hk]; rfl
  | user m hk ht => rw [methodSites_of_isUnary hk ht]; rfl
  | convert c => simp [sites]
  | primitive op => simp [sites]

/-- Only a lifted method may be left out. -/
theorem sites_eq_nil (h : Chosen kind ty lifted method action lift)
    (hm : (method.isSome && lifted) = false) (hlift : lift = true) : action.sites id = [] := by
  cases h with
  | user m hk ht =>
      rw [hlift] at hm
      cases hm
  | _ => rfl

end UnaryAction.Chosen

namespace BinaryForm.Chosen

variable {form : BinaryForm}

theorem testSites_eq (h : Chosen schema kind ty operand lifted method form) :
    form.testSites id = truthSites schema id kind operand method := by
  cases h with
  | element _ hk => rw [hk]; rfl
  | logical hk => simp [testSites, truthSites]
  | userLogical m ops hk hops => simp [testSites, truthSites, hk, hops]
  | user m hk hc hi hl => simp [testSites, truthSites, hl]
  | kleene _ hl => simp [testSites, truthSites]
  | primitive op onNull hl => simp [testSites, truthSites]

theorem lastSites_eq (h : Chosen schema kind ty operand lifted method form) :
    form.lastSites id = methodSites id kind method := by
  cases h with
  | element _ hk => rw [hk]; rfl
  | userLogical m ops hk hops =>
      rw [methodSites_of_isBinary (by rcases hk with rfl | rfl <;> rfl)
        (by rcases hk with rfl | rfl <;> decide) (by rcases hk with rfl | rfl <;> decide)]
      rfl
  | user m hk hc hi hl => rw [methodSites_of_isBinary hk hc hi]; rfl
  | _ => simp [lastSites, BinaryAction.sites]

/-- Only logical operators and lifted methods may leave a call out. -/
theorem skips_eq_false (h : Chosen schema kind ty operand lifted method form)
    (ha : kind ≠ .andAlso) (ho : kind ≠ .orElse) (hm : (method.isSome && lifted) = false) :
    form.skips = false := by
  cases h with
  | logical hk => exact absurd hk (not_or.mpr ⟨ha, ho⟩)
  | userLogical m ops hk hops => exact absurd hk (not_or.mpr ⟨ha, ho⟩)
  | user m hk hc hi hl =>
      have hlift : lifted = false := by simpa using hm
      simp [skips, hlift]
  | _ => rfl

end BinaryForm.Chosen

end Operators

/-! ## Code -/

section Emitted

variable {cx : EmitContext} {run : Context} {f : Frame} {exact : Bool}

theorem Code.makes_assemble {slot : Nat} {new : Code} {steps : List Code} {N S : List CallSite}
    (hnew : Makes Machine.calls exact N (new.run run f))
    (hsteps : Makes Machine.calls exact S (Code.runSteps run f steps)) :
    Makes Machine.calls exact (N ++ S) ((Code.assemble slot new steps).run run f) := by
  simp only [Code.run]
  exact hnew.bind fun v => .after (.storeSlot slot v) fun _ => hsteps.before fun _ => .loadSlot slot

theorem Code.makes_descend (hrun : run.CallsOnce) {id slot inner : Nat} {m : Member}
    {steps : List Code} {S : List CallSite}
    (hsteps : Makes Machine.calls exact S (Code.runSteps run f steps)) :
    Makes Machine.calls exact (m.readSites id ++ S)
      ((Code.descend slot m inner steps).run run f) := by
  simp only [Code.run]
  refine .after (.loadSlot slot) fun target => ?_
  refine (Makes.ofEval (hrun.readMember m target)).bind fun v => ?_
  exact .after (.storeSlot inner v) fun _ => hsteps.before fun _ => .pure _

/-- A block is run like a list of expressions; its value is the last one. -/
theorem Code.runBlock_eq (last : Value) (cs : List Code) :
    Code.runBlock run f last cs = (do
      let vs ← Code.runAll run f cs
      return vs.getLastD last) := by
  induction cs generalizing last with
  | nil => simp [Code.runBlock, Code.runAll]
  | cons c cs ih => simp [Code.runBlock, Code.runAll, ih, List.getLast?_cons]

mutual

theorem Node.makes (hrun : run.CallsOnce) : (n : Tree) → {scope : EmitScope} → {c : Code} →
    {s s' : EmitState} → CallsInPlace exact n.walk → n.emit cx scope s = .ok (c, s') →
    Makes Machine.calls exact (n.callSites cx.schema) (c.run run f)
  | .mk id kind ty payload, _, _, _, _, hp, h => Payload.makes hrun id kind ty payload hp h

theorem Payload.makes (hrun : run.CallsOnce) (id : Nat) (kind : Kind) (ty : Ty) :
    (payload : Payload Value) → {scope : EmitScope} → {c : Code} → {s s' : EmitState} →
    CallsInPlace exact (.node (.mk id kind ty payload) :: payload.walk kind) →
    payload.emit cx scope kind ty s = .ok (c, s') →
    Makes Machine.calls exact (payload.callSites cx.schema id kind) (c.run run f)
  | .constant v, _, _, _, _, _, h => by
      rcases emitConstant_eq_ok.mp (Payload.emit_constant.mp h).2 with ⟨-, rfl, -⟩ | ⟨-, rfl, -⟩
      · exact .quiet (.pure _)
      · exact .quiet (.pure _)
  | .parameter p, _, _, _, _, _, h => by
      obtain ⟨-, -, a, -, rfl⟩ := Payload.emit_parameter.mp h
      exact .quiet (.load f a)
  | .unary x method lifted, _, _, _, _, hp, h => by
      rw [Payload.callSites]
      by_cases hq : kind = .quote
      · subst hq
        obtain ⟨-, -, rfl⟩ := Payload.emit_quote.mp h
        rw [if_pos rfl]
        exact .quiet (.ofEval (Quiet.quote f _))
      · obtain ⟨action, lift, operand, ha, hx, rfl⟩ := (Payload.emit_unary hq).mp h
        have hchosen := unaryAction?_chosen ha
        have hwalk := hp.tail
        rw [Payload.walk, if_neg hq] at hwalk
        rw [if_neg hq, ← hchosen.sites_eq, Code.run]
        refine (Node.makes hrun x hwalk hx).bind fun v => hrun.unary (fun he => ?_) v
        exact hchosen.sites_eq_nil (Node.branches_eq_false.mp (hp.straight_self he)).2
  | .binary l r method lifted toNull (some conv), _, _, _, _, hp, _ =>
      absurd hp.direct_self fun h => Bool.noConfusion h
  | .binary l r method lifted toNull none, _, _, _, _, hp, h => by
      rw [Payload.callSites]
      by_cases hc : kind = .coalesce
      · subst hc
        obtain ⟨_, _, _, hl, hr, rfl⟩ := Payload.emit_coalesce.mp h
        rw [truthSites_of_ne (by decide) (by decide), List.nil_append, Code.run]
        refine (Node.makes hrun l hp.tail.left hl).bind fun v => ?_
        split
        · exact (Node.makes hrun r hp.tail.right hr).fewer (List.sublist_append_left _ _)
            (hp.inexact rfl)
        · exact .skippedIf (hp.inexact rfl) (.pure _)
      · obtain ⟨form, _, _, _, hform, hl, hr, rfl⟩ := (Payload.emit_binary hc).mp h
        have hchosen := binaryForm?_chosen hform
        rw [← hchosen.testSites_eq, ← hchosen.lastSites_eq]
        refine form.makes hrun (Node.makes hrun l hp.tail.left hl)
          (Node.makes hrun r hp.tail.right hr) fun he => ?_
        obtain ⟨⟨-, -, ha, ho⟩, hm⟩ := Node.branches_eq_false.mp (hp.straight_self he)
        exact hchosen.skips_eq_false ha ho hm
  | .conditional t a b, _, _, _, _, hp, h => by
      obtain ⟨rfl, _, _, _, _, _, ht, ha, hb, rfl⟩ := Payload.emit_conditional.mp h
      have he := hp.inexact rfl
      rw [Payload.callSites, Code.run]
      refine (Node.makes hrun t hp.tail.left ht).bind fun v => .after (.execExcept _) fun test => ?_
      split
      · exact (Node.makes hrun a hp.tail.right.left ha).fewer (List.sublist_append_left _ _) he
      · exact (Node.makes hrun b hp.tail.right.right hb).fewer (List.sublist_append_right _ _) he
  | .memberAccess none m, _, _, _, _, _, h => by
      cases hm : m.isStatic with
      | true =>
          obtain ⟨-, -, rfl⟩ := (Payload.emit_staticMember hm).mp h
          exact .ofEval (hrun.readMember m .null)
      | false =>
          obtain ⟨-, _, _, hx, -⟩ := (Payload.emit_member hm).mp h
          cases hx
  | .memberAccess (some x) m, _, _, _, _, hp, h => by
      rw [Payload.callSites]
      cases hm : m.isStatic with
      | true =>
          obtain ⟨-, -, rfl⟩ := (Payload.emit_staticMember hm).mp h
          exact .ofEval (hrun.readMember m .null)
      | false =>
          obtain ⟨-, _, _, heq, hx, rfl⟩ := (Payload.emit_member hm).mp h
          cases heq
          rw [Code.run]
          exact (Node.makes hrun x hp.tail hx).bind fun v => .ofEval (hrun.readMember m v)
  | .call none m args, _, _, _, _, hp, h => by
      cases hm : m.isStatic with
      | true =>
          obtain ⟨-, _, ha, rfl⟩ := (Payload.emit_callStatic hm).mp h
          rw [Payload.callSites, Code.run]
          exact (Node.makesAll hrun args hp.tail ha).bind fun _ => .ofEval (hrun.makes ⟨id, _⟩ _)
      | false =>
          obtain ⟨-, _, _, _, _, hx, -⟩ := (Payload.emit_callInstance hm).mp h
          cases hx
  | .call (some x) m args, _, _, _, _, hp, h => by
      rw [Payload.callSites]
      cases hm : m.isStatic with
      | true =>
          obtain ⟨-, _, ha, rfl⟩ := (Payload.emit_callStatic hm).mp h
          rw [Code.run]
          exact (Node.makesAll hrun args hp.tail.right ha).bind fun _ =>
            .ofEval (hrun.makes ⟨id, _⟩ _)
      | false =>
          obtain ⟨-, _, _, _, _, heq, hx, ha, rfl⟩ := (Payload.emit_callInstance hm).mp h
          cases heq
          rw [Code.run]
          refine (Node.makes hrun x hp.tail.left hx).bind fun _ => ?_
          refine .after (.execExcept _) fun _ => ?_
          exact (Node.makesAll hrun args hp.tail.right ha).bind fun _ =>
            .ofEval (hrun.makes ⟨id, _⟩ _)
  | .new (some _) args, _, _, _, _, hp, h => by
      obtain ⟨-, _, ha, rfl⟩ := Payload.emit_construct.mp h
      rw [Payload.callSites, Code.run]
      exact (Node.makesAll hrun args hp.tail ha).bind fun _ => .ofEval (hrun.makes ⟨id, _⟩ _)
  | .new none _, _, _, _, _, _, h => by
      obtain ⟨-, hc⟩ := emitDefault_eq_ok (Payload.emit_newDefault.mp h).2
      rcases hc with ⟨rfl, -⟩ | ⟨_, -, rfl⟩ | ⟨_, -, rfl⟩
      · exact .quiet (.pure _)
      · exact .quiet (.ofEval (Quiet.alloc _))
      · exact .quiet (.ofEval (Quiet.alloc _))
  | .newArray items, _, _, _, _, hp, h => by
      rw [Payload.callSites]
      rcases Payload.emit_newArray.mp h with ⟨-, _, hi, rfl⟩ | ⟨-, x, e, length, hi, -, hx, rfl⟩
      · rw [Code.run]
        exact (Node.makesAll hrun items hp.tail hi).before fun _ => .ofEval (Quiet.alloc _)
      · -- the length of an array is emitted and run like a list of one item
        have hlist := Node.makesAll hrun items hp.tail (hi ▸ Node.emitAll_cons.mpr
          ⟨_, _, _, hx, Node.emitAll_nil.mpr ⟨rfl, rfl⟩, rfl⟩)
        have heq : (Code.newArrayOf e.default length).run run f = (do
            let vs ← Code.runAll run f [length]
            let n ← Exec.ofExcept ((vs.headD .null).asLength run.arrayLimit)
            Exec.ofEval (Eval.alloc (·.newArray (List.replicate n e.default)))) := by
          simp [Code.run, Code.runAll]
        rw [heq]
        exact hlist.before fun _ => (Quiet.execExcept _).bind fun _ => .ofEval (Quiet.alloc _)
  | .listInit x inits, _, _, _, _, hp, h => by
      obtain ⟨-, _, s₁, _, hx, hi, rfl⟩ := Payload.emit_listInit.mp h
      exact Code.makes_assemble (Node.makes hrun x hp.tail.left hx)
        (ElementInit.makesAll hrun id inits hp.tail.right hi)
  | .memberInit x bindings, _, _, _, _, hp, h => by
      obtain ⟨-, _, s₁, _, hx, hb, rfl⟩ := Payload.emit_memberInit.mp h
      exact Code.makes_assemble (Node.makes hrun x hp.tail.left hx)
        (MemberBinding.makesAll hrun id bindings hp.tail.right hb)
  | .lambda l, _, _, _, _, _, h => by
      obtain ⟨-, unit, -, rfl⟩ := Payload.emit_lambda.mp h
      exact .quiet (.ofEval (Quiet.closure f unit))
  | .invoke x args, _, _, _, _, hp, _ =>
      absurd hp.direct_self fun h => Bool.noConfusion h
  | .typeIs x t, _, _, _, _, hp, h => by
      obtain ⟨-, _, hx, rfl⟩ := Payload.emit_typeIs.mp h
      rw [Payload.callSites, Code.run]
      exact (Node.makes hrun x hp.tail hx).before fun v => .ofEval (Quiet.pure _)
  | .assign _ x, _, _, _, _, hp, h => by
      obtain ⟨-, _, a, hx, ha, rfl⟩ := Payload.emit_assign.mp h
      rw [Payload.callSites, Code.run]
      refine (Node.makes hrun x hp.tail.tail hx).before fun v => ?_
      exact (Quiet.store f a v).bind fun _ => .pure _
  | .block items, _, _, _, _, hp, h => by
      obtain ⟨-, _, hi, rfl⟩ := Payload.emit_block.mp h
      rw [Payload.callSites, Code.run, Code.runBlock_eq]
      exact (Node.makesAll hrun items hp.tail hi).before fun _ => .pure _

theorem Node.makesAll (hrun : run.CallsOnce) : (ns : List Tree) → {scope : EmitScope} →
    {cs : List Code} → {s s' : EmitState} → CallsInPlace exact (Node.walkAll ns) →
    Node.emitAll cx scope ns s = .ok (cs, s') →
    Makes Machine.calls exact (Node.callSitesAll cx.schema ns) (Code.runAll run f cs)
  | [], _, _, _, _, _, h => by
      obtain ⟨rfl, -⟩ := Node.emitAll_nil.mp h
      exact .quiet (.pure _)
  | n :: ns, _, _, _, _, hp, h => by
      obtain ⟨_, _, _, hn, hns, rfl⟩ := Node.emitAll_cons.mp h
      rw [Node.callSitesAll, Code.runAll]
      exact (Node.makes hrun n hp.left hn).bind fun _ =>
        (Node.makesAll hrun ns hp.right hns).before fun _ => .pure _

theorem ElementInit.makesAll (hrun : run.CallsOnce) (id : Nat) :
    (inits : List (ElementInit Value)) → {scope : EmitScope} → {slot : Nat} → {cs : List Code} →
    {s s' : EmitState} →
    CallsInPlace exact (ElementInit.walkAll inits) →
    ElementInit.emitAll cx scope slot inits s = .ok (cs, s') →
    Makes Machine.calls exact (ElementInit.callSitesAll cx.schema id inits)
      (Code.runSteps run f cs)
  | [], _, _, _, _, _, _, h => by
      obtain ⟨rfl, -⟩ := ElementInit.emitAll_nil.mp h
      exact .quiet (.pure _)
  | .mk _ args :: rest, _, slot, _, _, _, hp, h => by
      obtain ⟨-, _, _, _, ha, hr, rfl⟩ := ElementInit.emitAll_cons.mp h
      rw [ElementInit.callSitesAll, Code.runSteps, Code.run]
      refine Makes.bind ?_ fun _ => ElementInit.makesAll hrun id rest hp.right hr
      refine .after (.loadSlot slot) fun _ => .after (.execExcept _) fun _ => ?_
      exact (Node.makesAll hrun args hp.left ha).bind fun _ =>
        (Makes.ofEval (hrun.makes ⟨id, _⟩ _)).before fun _ => .pure _

theorem MemberBinding.makesAll (hrun : run.CallsOnce) (id : Nat) :
    (bindings : List (MemberBinding Value)) → {scope : EmitScope} → {slot : Nat} →
    {cs : List Code} → {s s' : EmitState} →
    CallsInPlace exact (MemberBinding.walkAll bindings) →
    MemberBinding.emitAll cx scope slot bindings s = .ok (cs, s') →
    Makes Machine.calls exact (MemberBinding.callSitesAll cx.schema id bindings)
      (Code.runSteps run f cs)
  | [], _, _, _, _, _, _, h => by
      obtain ⟨rfl, -⟩ := MemberBinding.emitAll_nil.mp h
      exact .quiet (.pure _)
  | .assign m x :: rest, _, slot, _, _, _, hp, h => by
      obtain ⟨_, _, _, hx, hr, rfl⟩ := MemberBinding.emitAll_assign h
      rw [MemberBinding.callSitesAll, Code.runSteps, Code.run]
      refine Makes.bind ?_ fun _ => MemberBinding.makesAll hrun id rest hp.right hr
      refine (Node.makes hrun x hp.left hx).bind fun v => .after (.loadSlot slot) fun target => ?_
      exact (Makes.ofEval (hrun.writeMember m target v)).before fun _ => .pure _
  | .bind m nested :: rest, _, _, _, _, _, hp, h => by
      obtain ⟨_, _, _, hn, hr, rfl⟩ := MemberBinding.emitAll_bind.mp h
      have hnested := MemberBinding.makesAll hrun id nested hp.left hn
      exact (Code.makes_descend hrun hnested).bind fun _ =>
        MemberBinding.makesAll hrun id rest hp.right hr
  | .list m inits :: rest, _, _, _, _, _, hp, h => by
      obtain ⟨_, _, _, hn, hr, rfl⟩ := MemberBinding.emitAll_list.mp h
      exact (Code.makes_descend hrun (ElementInit.makesAll hrun id inits hp.left hn)).bind fun _ =>
        MemberBinding.makesAll hrun id rest hp.right hr

end

end Emitted

/-! ## Invocations -/

theorem CodeUnit.calls_newCells (u : CodeUnit) (args : List Value) (w : World) :
    (u.newCells args w).2.calls = w.calls := by
  unfold CodeUnit.newCells
  split
  · rfl
  · rfl

/-- A unit makes the calls of its code. -/
theorem CodeUnit.run_makes {u : CodeUnit} {cx : Context} {exact : Bool} {sites : List CallSite}
    (h : ∀ f, Makes Machine.calls exact sites (u.body.run cx f)) (scope : Scope) (depth : UInt32)
    (args : List Value) : Makes World.calls exact sites (u.run cx scope depth args) := by
  intro w
  have hbody := h ⟨scope, (u.newCells args w).1, depth⟩ ⟨u.slots args, (u.newCells args w).2⟩
  rw [Machine.calls, u.calls_newCells args w] at hbody
  rw [CodeUnit.run_eq]
  revert hbody
  generalize u.body.run cx _ _ = r
  rintro (⟨v, made, hrec, ht⟩ | ⟨e, made, hrec, ht⟩)
  · exact .ok v made hrec ht
  · exact .error e made hrec ht

/-- An invocation makes the calls of the code of its unit, or fails before any call. -/
theorem invokeAt_makes {schema : Schema} {arrayLimit : Nat}
    {host : HostRef → List Value → Eval Value} {exact : Bool} {sites : List CallSite}
    {scope : Scope} {u : CodeUnit} (hu : scope.unit? = some u)
    (h : ∀ cx f, cx.host = host → Makes Machine.calls exact sites (u.body.run cx f))
    (nesting : Nat) (depth : UInt32) (args : List Value) :
    Makes World.calls exact sites (invokeAt schema arrayLimit host nesting depth scope args) := by
  cases nesting with
  | zero => exact .throw _
  | succ nesting =>
      rw [invokeAt]
      simp only [hu]
      refine .after (.evalExcept _) fun _ => .after (.evalExcept _) fun _ => ?_
      exact CodeUnit.run_makes (fun f => h _ f rfl) scope depth args

/-- The code of a listed lambda makes the calls of its body. -/
theorem Program.unit_makes {schema : Schema} {options : Options} {root : Lambda Value}
    {p : Program} (hp : ofLambda schema options root = .ok p) {u : Nat} {site : LambdaSite}
    (hsite : root.sites[u]? = some site) {exact : Bool}
    (hplace : CallsInPlace exact site.lambda.body.walk) :
    ∃ unit, p.units.get? u = some unit ∧ ∀ cx f, cx.CallsOnce →
      Makes Machine.calls exact (site.lambda.body.callSites schema) (unit.body.run cx f) := by
  have hlayout := layout hp
  have hu : u < p.units.size := by
    rw [hlayout.count]
    exact (List.getElem?_eq_some_iff.mp hsite).1
  obtain ⟨site', parent, slotCount, body, hof⟩ := hlayout.laid u hu
  cases hsite.symm.trans hof.listed
  obtain ⟨s, s', hemit⟩ := hof.emitted
  exact ⟨_, hof.unit, fun cx f hcx => Node.makes hcx _ hplace hemit⟩

/-- **Operands are evaluated at most once and in order.** Take any lambda that got a unit in a
compiled program and that invokes no function, and a host that stays outside of compiled code. One
invocation, whether it succeeds or fails, goes through a sublist of the call sites of the body, and
the host functions that it calls are those of these sites. If it succeeds and the body has no
branches, it goes through all of them. -/
theorem invocation_calls_in_order {e : Environment} (hhost : e.host.StaysOutside)
    {options : Options} {root : Lambda Value} {p : Program}
    (hp : Program.ofLambda e.schema options root = .ok p) {scope : Scope}
    (hscope : scope.program = p) {site : LambdaSite}
    (hsite : root.sites[scope.unit]? = some site)
    (hdirect : ∀ n, .node n ∈ site.lambda.body.walk → n.payload.invokes = false)
    {f : FunctionRef} {w : World} (hf : w.scope? f = some scope) (args : List Value) :
    EndsAfter World.calls
      (fun ok made => ∃ used : List CallSite, used.Sublist (site.lambda.body.callSites e.schema) ∧
        used.map (·.callee) = made.map (·.callee) ∧
        (ok = true → (∀ n, .node n ∈ site.lambda.body.walk → n.branches = false) →
          used = site.lambda.body.callSites e.schema))
      w.calls (e.invoke f args w) := by
  have hmakes : ∀ exact, CallsInPlace exact site.lambda.body.walk →
      Makes World.calls exact (site.lambda.body.callSites e.schema) (e.enter scope args) := by
    intro exact hplace
    obtain ⟨unit, hunit, hrun⟩ := Program.unit_makes hp hsite hplace
    subst hscope
    refine invokeAt_makes hunit (fun cx f hcx => hrun cx f ?_) callCeiling 0 args
    intro g args
    rw [hcx]
    exact Records.hostCall hhost e.schema e.arrayLimit e.reentries g args
  rw [Environment.invoke, bind_of_ok (Eval.scopeOf_of_some hf)]
  by_cases hstraight : ∀ n, .node n ∈ site.lambda.body.walk → n.branches = false
  · refine (hmakes true ⟨hdirect, fun _ => hstraight⟩ w).mono ?_
    rintro ok made ⟨used, hsub, hcalls, hall⟩
    exact ⟨used, hsub, hcalls, fun hok _ => hall rfl hok⟩
  · refine (hmakes false ⟨hdirect, fun h => absurd h Bool.false_ne_true⟩ w).mono ?_
    rintro ok made ⟨used, hsub, hcalls, -⟩
    exact ⟨used, hsub, hcalls, fun _ h => absurd h hstraight⟩

/-- `last (first () + first ())`, where the operator is user-defined. -/
def nestedCalls : Lambda Value :=
  let method (id : Nat) (label : String) (params : List Ty) : Method :=
    ⟨⟨id, label⟩, none, params, .unit⟩
  let call (id : Nat) (m : Method) (args : List Tree) : Tree :=
    .mk id .call .unit (.call none m args)
  let sum : Tree := .mk 1 .add .unit (.binary (call 2 (method 0 "first" []) [])
    (call 3 (method 0 "first" []) []) (some (method 1 "plus" [.unit, .unit])) false false none)
  .mk 0 none [] (call 4 (method 2 "last" [.unit]) [sum])

theorem invocation_calls_in_order_nested :
    let e : Environment := ⟨.empty, fun _ _ heap _ => .done (.ok .unit) heap, 1000, 0⟩
    nestedCalls.body.callSites .empty
      = [⟨2, 0, "first"⟩, ⟨3, 0, "first"⟩, ⟨1, 1, "plus"⟩, ⟨4, 2, "last"⟩] ∧
    ∃ p w, Program.ofLambda .empty {} nestedCalls = .ok p ∧
      e.invoke ⟨0, nestedCalls.signature, none⟩ [] { closures := #[.root p 0] } = .ok .unit w ∧
      (nestedCalls.body.callSites .empty).map (·.callee) = (w.calls.map (·.callee)).reverse := by
  intro e
  obtain ⟨p, hp, hok⟩ : ∃ p, Program.ofLambda .empty {} nestedCalls = .ok p ∧
      (Session.outcome (e.invoke ⟨0, nestedCalls.signature, none⟩ []
        { closures := #[.root p 0] })).1 = .ok .unit :=
    ⟨_, rfl, rfl⟩
  have hhost : e.host.StaysOutside := fun _ _ heap _ => ⟨.ok .unit, heap, rfl⟩
  have hplain : ∀ n, .node n ∈ nestedCalls.body.walk →
      n.payload.invokes = false ∧ n.branches = false := by
    intro n hn
    simp [nestedCalls, Lambda.body, Node.walk, Payload.walk, Node.walkAll] at hn
    rcases hn with rfl | rfl | rfl | rfl <;> exact ⟨rfl, rfl⟩
  have hroot : (Scope.root p 0).program = p := rfl
  have hcalls := invocation_calls_in_order hhost hp hroot rfl (fun n hn => (hplain n hn).1)
    (f := ⟨0, nestedCalls.signature, none⟩) (w := { closures := #[.root p 0] }) rfl []
  generalize hrun : e.invoke _ _ _ = r at hcalls hok
  cases hcalls with
  | error => cases hok
  | @ok v w made hrec hmade =>
      cases hok
      obtain ⟨used, -, hused, hall⟩ := hmade
      refine ⟨rfl, p, w, hp, hrun, ?_⟩
      rw [hrec, List.append_nil, ← List.map_reverse, List.reverse_reverse, ← hused,
        hall rfl fun n hn => (hplain n hn).2]

end ExprTree
