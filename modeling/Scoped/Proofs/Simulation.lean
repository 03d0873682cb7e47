import Scoped.Eval.Basic
import Scoped.Proofs.Scopes

/-!
# Two runs side by side

What the evaluator keeps, and what its results depend on, follows from what the few
operations on the store keep. A `Simulation` relates the stores of two runs and names the
values that may be in flight, the scopes that a run may be in (`seen`) and those that it may
declare names in (`home`); its fields ask that each operation on stores respects these.

`Simulation.Respects` is the judgment about two computations : from stores that are related
they end with the same value or the same error, in related stores, back in their contexts,
and with the same lines printed. The judgment is relative to a store `w` from which the
store of the first run has grown, so that what is known of a value or of a scope at one
moment is known later.

Each construct of the language has its rule, and the main results put them together, by
induction over the syntax and over the calls that may still become active :
`respects_eval`, `respects_exec`, `respects_call`. An `Invariant` of one run is the case in
which the stores of the two runs are equal.
-/

set_option linter.unusedSectionVars false

namespace Scoped

/-! ## Contexts and ends -/

/-- Where a run is : its scope, its configuration and the number of active calls. -/
structure Context where
  scope : ScopeId
  config : Config
  depth : Nat

namespace Context

/-- The context in another scope. -/
def enter (c : Context) (i : ScopeId) : Context := { c with scope := i }

/-- The context with one more active call. -/
def deeper (c : Context) : Context := { c with depth := c.depth + 1 }

/-- The number of calls that may still become active. -/
def remaining (c : Context) : Nat := c.config.maxCallDepth - c.depth

@[simp]
theorem scope_enter (c : Context) (i : ScopeId) : (c.enter i).scope = i := rfl

@[simp]
theorem enter_scope (c : Context) : c.enter c.scope = c := rfl

@[simp]
theorem enter_enter (c : Context) (i j : ScopeId) : (c.enter i).enter j = c.enter j := rfl

@[simp]
theorem enter_deeper (c : Context) (i : ScopeId) : (c.enter i).deeper = c.deeper.enter i := rfl

end Context

/-- The context of a machine. -/
def Machine.context (m : Machine) : Context := ⟨m.scope, m.config, m.depth⟩

namespace Eval

variable {α β : Type} {x : Eval α} {f : α → Eval β} {m m' : Machine} {a : α} {e : Error}

/-- How a computation ends from a machine : with a value or with an error. -/
def outcome (x : Eval α) (m : Machine) : Except Error α :=
  match x m with
  | .ok a _ => .ok a
  | .error e _ => .error e

/-- The machine that a computation leaves, whichever way it ends. -/
def final (x : Eval α) (m : Machine) : Machine :=
  match x m with
  | .ok _ m' => m'
  | .error _ m' => m'

theorem bind_ok (h : x m = .ok a m') : (x >>= f) m = f a m' := by
  simp only [bind, EStateM.bind, h]

theorem bind_error (h : x m = .error e m') : (x >>= f) m = .error e m' := by
  simp only [bind, EStateM.bind, h]

/-- An assignment of a run changes the store in one binding and nothing else. -/
theorem assign_eq (span : Span) (x : String) (v : Value) (m : Machine) :
    assign span x v m = (m.store.resolve? m.scope x).elim
      (.error ⟨.undefinedVariable x, span⟩ m)
      fun i => .ok v { m with store := m.store.bind i x v } := by
  rw [assign]
  cases hi : m.store.resolve? m.scope x with
  | none => rfl
  | some i => simp only [Option.elim_some, Store.set_eq_bind (Store.binds_of_resolve? hi)]

end Eval

/-! ## Values that are no functions -/

theorem Value.type_ofLiteral (l : Literal) : (Value.ofLiteral l).type ≠ .function := by
  cases l <;> simp [Value.ofLiteral, Value.type]

theorem BinaryOp.type_outcome {op : BinaryOp} {r : Except Overflow Number} {v : Value}
    (h : op.outcome r = .ok v) : v.type ≠ .function := by
  cases r <;> simp [BinaryOp.outcome] at h
  simp [← h, Value.type]

theorem BinaryOp.type_arithmetic {op : BinaryOp} {f : Number → Number → Except Overflow Number}
    {a b v : Value} (h : op.arithmetic f a b = .ok v) : v.type ≠ .function := by
  unfold arithmetic at h
  split at h
  · exact type_outcome h
  · cases h

theorem BinaryOp.type_division {op : BinaryOp} {z : TypeFault}
    {f : Number → Number → Except Overflow Number} {a b v : Value}
    (h : op.division z f a b = .ok v) : v.type ≠ .function := by
  unfold division at h
  split at h
  · split at h
    · cases h
    · exact type_outcome h
  · cases h

theorem BinaryOp.type_ordering {op : BinaryOp} {f : Ordering → Bool} {a b v : Value}
    (h : op.ordering f a b = .ok v) : v.type ≠ .function := by
  unfold ordering at h
  split at h
  · cases h
    simp [Value.type]
  · cases h

/-- No operator makes a function value. -/
theorem BinaryOp.type_apply {op : BinaryOp} {a b v : Value} (h : op.apply a b = .ok v) :
    v.type ≠ .function := by
  cases op with
  | add =>
    simp only [apply, sum] at h
    split at h
    · cases h
      simp [Value.type]
    · cases h
      simp [Value.type]
    · exact type_arithmetic h
  | sub | mul => exact type_arithmetic h
  | div | rem => exact type_division h
  | lt | gt | le | ge => exact type_ordering h
  | eq | ne =>
    cases h
    simp [Value.type]

theorem UnaryOp.type_apply {op : UnaryOp} {a v : Value} (h : op.apply a = .ok v) :
    v.type ≠ .function := by
  cases op with
  | not =>
    cases h
    simp [Value.type]
  | minus =>
    simp only [apply] at h
    split at h
    · next n =>
      cases hn : n.neg <;> simp [UnaryOp.outcome, hn] at h
      simp [← h, Value.type]
    · cases h

/-- No native makes a function value. -/
theorem Native.type_apply {n : Native} {clock : Int64} {args : List Value} {v : Value}
    (h : n.apply clock args = .ok v) : v.type ≠ .function := by
  unfold Native.apply at h
  split at h <;> cases h <;> simp [Value.type]

/-! ## Simulations -/

/-- A relation between the stores of two runs that the operations on stores respect. -/
structure Simulation where
  rel : Store → Store → Prop
  /-- The values that may be in flight. -/
  ok : Store → Value → Prop
  /-- The scopes that a run may be in. -/
  seen : Store → ScopeId → Prop
  /-- The scopes that a run may declare names in. -/
  home : Store → ScopeId → Prop
  ok_grows : ∀ {s t v}, s.Grows t → ok s v → ok t v
  seen_grows : ∀ {s t i}, s.Grows t → seen s i → seen t i
  home_grows : ∀ {s t i}, s.Grows t → home s i → home t i
  seen_of_home : ∀ {s i}, home s i → seen s i
  ok_data : ∀ {s v}, v.type ≠ .function → ok s v
  seen_captured : ∀ {s n d i}, ok s (.function (.closure n d i)) → seen s i
  get?_eq : ∀ {s t i x}, rel s t → seen s i → t.get? i x = s.get? i x
  ok_get? : ∀ {s t i x v}, rel s t → seen s i → s.get? i x = some v → ok s v
  resolve?_eq : ∀ {s t i x}, rel s t → seen s i → t.resolve? i x = s.resolve? i x
  assign : ∀ {s t i x j v}, rel s t → seen s i → s.resolve? i x = some j → ok s v →
    rel (s.bind j x v) (t.bind j x v)
  refuses_eq : ∀ {s t i x}, rel s t → home s i → t.refuses i x = s.refuses i x
  declare : ∀ {s t i x v}, rel s t → home s i → ok s v → rel (s.bind i x v) (t.bind i x v)
  nextIdentity_eq : ∀ {s t}, rel s t → t.nextIdentity = s.nextIdentity
  takeIdentity : ∀ {s t}, rel s t → rel s.takeIdentity t.takeIdentity
  ok_closure : ∀ {s t d i}, rel s t → seen s i →
    ok s.takeIdentity (.function (.closure s.nextIdentity d i))
  nextScope_eq : ∀ {s t}, rel s t → t.nextScope = s.nextScope
  openInside : ∀ {s t i k}, rel s t → seen s i → rel (s.openInside i k) (t.openInside i k)
  home_openInside : ∀ {s t i k}, rel s t → seen s i → home (s.openInside i k) s.nextScope

namespace Simulation

variable {S : Simulation} {α β : Type} {w w' : Store} {c c' : Context} {i j : ScopeId}
  {m n m' n' m'' n'' : Machine} {Q : Store → α → Prop} {R : Store → β → Prop}

/-- What two computations do to the machines that they start from. -/
structure Steps (S : Simulation) (m n m' n' : Machine) : Prop where
  rel : S.rel m'.store n'.store
  grows : m.store.Grows m'.store
  left : m'.context = m.context
  right : n'.context = n.context
  printed : ∃ lines, m'.printed = m.printed ++ lines ∧ n'.printed = n.printed ++ lines

theorem Steps.refl (h : S.rel m.store n.store) : S.Steps m n m n :=
  ⟨h, .refl _, rfl, rfl, #[], by simp, by simp⟩

theorem Steps.trans (h : S.Steps m n m' n') (h' : S.Steps m' n' m'' n'') :
    S.Steps m n m'' n'' := by
  obtain ⟨l, hm, hn⟩ := h.printed
  obtain ⟨l', hm', hn'⟩ := h'.printed
  exact ⟨h'.rel, h.grows.trans h'.grows, h'.left.trans h.left, h'.right.trans h.right, l ++ l',
    by rw [hm', hm, Array.append_assoc], by rw [hn', hn, Array.append_assoc]⟩

/-- Both computations end with one value, of which `Q` holds, or both with one error. -/
inductive Ends (S : Simulation) (Q : Store → α → Prop) (m n : Machine) :
    EStateM.Result Error Machine α → EStateM.Result Error Machine α → Prop
  | ok {a m' n'} : Q m'.store a → S.Steps m n m' n' → Ends S Q m n (.ok a m') (.ok a n')
  | error {e m' n'} : S.Steps m n m' n' → Ends S Q m n (.error e m') (.error e n')

theorem Ends.after (h : S.Steps m n m' n') {r r' : EStateM.Result Error Machine α}
    (hr : S.Ends Q m' n' r r') : S.Ends Q m n r r' := by
  cases hr with
  | ok hQ h' => exact .ok hQ (h.trans h')
  | error h' => exact .error (h.trans h')

/-- From related stores, the first one grown from `w`, in the contexts `c` and `c'` the
computations end alike. -/
def Respects (S : Simulation) (w : Store) (c c' : Context) (Q : Store → α → Prop)
    (x y : Eval α) : Prop :=
  ∀ ⦃m n⦄, w.Grows m.store → m.context = c → n.context = c' → S.rel m.store n.store →
    S.Ends Q m n (x m) (y n)

/-- What the judgment says of two given machines. -/
theorem Respects.ends {x y : Eval α} (h : S.Respects m.store m.context n.context Q x y)
    (hr : S.rel m.store n.store) : x.outcome m = y.outcome n ∧
      S.Steps m n (x.final m) (y.final n) ∧ ∀ a, x.outcome m = .ok a → Q (x.final m).store a := by
  have h := h (.refl _) rfl rfl hr
  unfold Eval.outcome Eval.final
  generalize x m = r at h ⊢
  generalize y n = r' at h ⊢
  cases h with
  | ok hQ h => exact ⟨rfl, h, by rintro a ⟨⟩; exact hQ⟩
  | error h => exact ⟨rfl, h, by rintro a ⟨⟩⟩

/-! ## Rules for computations -/

theorem respects_pure {a : α} (h : ∀ s, w.Grows s → Q s a) :
    S.Respects w c c' Q (pure a) (pure a) :=
  fun _ _ hw _ _ hr => .ok (h _ hw) (.refl hr)

theorem respects_throw (e : Error) : S.Respects w c c' Q (throw e) (throw e) :=
  fun _ _ _ _ _ hr => .error (.refl hr)

theorem respects_bind {x y : Eval α} {f g : α → Eval β} (hx : S.Respects w c c' Q x y)
    (hf : ∀ a w', w.Grows w' → Q w' a → S.Respects w' c c' R (f a) (g a)) :
    S.Respects w c c' R (x >>= f) (y >>= g) := by
  intro m n hw hm hn hr
  have h := hx hw hm hn hr
  generalize hxm : x m = r at h
  generalize hyn : y n = r' at h
  cases h with
  | ok hQ h =>
    rw [Eval.bind_ok hxm, Eval.bind_ok hyn]
    exact .after h (hf _ _ (hw.trans h.grows) hQ (.refl _) (h.left.trans hm) (h.right.trans hn)
      h.rel)
  | error h =>
    rw [Eval.bind_error hxm, Eval.bind_error hyn]
    exact .error h

theorem respects_orAt {Q : Store → Value → Prop} {x y : Eval Value} (span : Span)
    (hx : S.Respects w c c' Q x y) :
    S.Respects w c c' Q (Eval.orAt span x) (Eval.orAt span y) := by
  intro m n hw hm hn hr
  have h := hx hw hm hn hr
  unfold Eval.orAt
  generalize x m = r at h ⊢
  generalize y n = r' at h ⊢
  cases h with
  | ok hQ h => exact .ok hQ h
  | error h => exact .error h

theorem respects_inScope {x y : Eval α} (k : ScopeId)
    (hx : S.Respects w (c.enter k) (c'.enter k) Q x y) :
    S.Respects w c c' Q (Eval.inScope k x) (Eval.inScope k y) := by
  intro m n hw hm hn hr
  have h := hx (m := m.enter k) (n := n.enter k) hw (hm ▸ rfl) (hn ▸ rfl) hr
  unfold Eval.inScope
  generalize x (m.enter k) = r at h ⊢
  generalize y (n.enter k) = r' at h ⊢
  -- the computation is back in scope `k`, and leaving it gives back the scope from before
  have back : ∀ {m' n'}, S.Steps (m.enter k) (n.enter k) m' n' →
      S.Steps m n (m'.enter m.scope) (n'.enter n.scope) := fun h =>
    ⟨h.rel, h.grows, congrArg (·.enter m.scope) h.left, congrArg (·.enter n.scope) h.right,
      h.printed⟩
  cases h with
  | ok hQ h => exact .ok hQ (back h)
  | error h => exact .error (back h)

theorem respects_inCall {x y : Eval α} (hx : S.Respects w c.deeper c'.deeper Q x y) :
    S.Respects w c c' Q (Eval.inCall x) (Eval.inCall y) := by
  intro m n hw hm hn hr
  have h := hx (m := m.deeper) (n := n.deeper) hw (hm ▸ rfl) (hn ▸ rfl) hr
  unfold Eval.inCall
  generalize x m.deeper = r at h ⊢
  generalize y n.deeper = r' at h ⊢
  have back : ∀ {m' n'}, S.Steps m.deeper n.deeper m' n' →
      S.Steps m n m'.shallower n'.shallower := fun h =>
    ⟨h.rel, h.grows, congrArg (fun c : Context => { c with depth := c.depth - 1 }) h.left,
      congrArg (fun c : Context => { c with depth := c.depth - 1 }) h.right, h.printed⟩
  cases h with
  | ok hQ h => exact .ok hQ (back h)
  | error h => exact .error (back h)

/-! ## Rules for the operations of a run -/

theorem respects_lookup (id : Ident) (hi : S.seen w c.scope) :
    S.Respects w c c S.ok (Eval.lookup id) (Eval.lookup id) := by
  rintro m n hw rfl hn hr
  have hseen : S.seen m.store m.scope := S.seen_grows hw hi
  have hscope : n.scope = m.scope := congrArg Context.scope hn
  unfold Eval.lookup Store.get
  rw [hscope, S.get?_eq hr hseen]
  cases hv : m.store.get? m.scope id.name with
  | some v => exact .ok (S.ok_get? hr hseen hv) (.refl hr)
  | none => exact .error (.refl hr)

theorem respects_assign (span : Span) (x : String) {v : Value} (hi : S.seen w c.scope)
    (hv : S.ok w v) : S.Respects w c c S.ok (Eval.assign span x v) (Eval.assign span x v) := by
  rintro m n hw rfl hn hr
  have hseen : S.seen m.store m.scope := S.seen_grows hw hi
  have hok : S.ok m.store v := S.ok_grows hw hv
  have hres : n.store.resolve? n.scope x = m.store.resolve? m.scope x := by
    rw [show n.scope = m.scope from congrArg Context.scope hn, S.resolve?_eq hr hseen]
  rw [Eval.assign_eq, Eval.assign_eq, hres]
  cases hj : m.store.resolve? m.scope x with
  | some j =>
    have hg := m.store.grows_bind j x v
    exact .ok (S.ok_grows hg hok) ⟨S.assign hr hseen hj hok, hg, rfl, rfl, #[], by simp, by simp⟩
  | none => exact .error (.refl hr)

theorem respects_declareIn (k : ScopeId) (id : Ident) {v : Value} (hk : S.home w k)
    (hv : S.ok w v) :
    S.Respects w c c' (fun _ _ => True) (Eval.declareIn k id v) (Eval.declareIn k id v) := by
  intro m n hw hm hn hr
  have hhome : S.home m.store k := S.home_grows hw hk
  have hok : S.ok m.store v := S.ok_grows hw hv
  unfold Eval.declareIn
  rw [S.refuses_eq hr hhome]
  split
  · exact .error (.refl hr)
  · exact .ok trivial
      ⟨S.declare hr hhome hok, m.store.grows_bind .., rfl, rfl, #[], by simp, by simp⟩

theorem respects_declare (id : Ident) {v : Value} (hi : S.home w c.scope) (hv : S.ok w v) :
    S.Respects w c c (fun _ _ => True) (Eval.declare id v) (Eval.declare id v) := by
  rintro m n hw rfl hn hr
  have h := S.respects_declareIn m.scope id hi hv hw rfl hn hr
  have hscope : n.scope = m.scope := congrArg Context.scope hn
  unfold Eval.declare
  rwa [hscope]

theorem respects_declareAll (k : ScopeId) : ∀ (ids : List Ident) {vs : List Value} {w : Store},
    S.home w k → (∀ v ∈ vs, S.ok w v) →
    S.Respects w c c' (fun _ _ => True) (Eval.declareAll k ids vs) (Eval.declareAll k ids vs)
  | [], _, _, _, _ => respects_pure fun _ _ => trivial
  | _ :: _, [], _, _, _ => respects_pure fun _ _ => trivial
  | id :: ids, v :: vs, w, hk, hv => by
    rw [Eval.declareAll]
    refine respects_bind (respects_declareIn k id hk (hv v (by simp))) fun _ w' hw _ => ?_
    exact respects_declareAll k ids (S.home_grows hw hk) fun u hu =>
      S.ok_grows hw (hv u (List.mem_cons_of_mem _ hu))

theorem respects_closure (d : FunctionDef) (hi : S.seen w c.scope) :
    S.Respects w c c S.ok (Eval.closure d) (Eval.closure d) := by
  rintro m n hw rfl hn hr
  have hseen : S.seen m.store m.scope := S.seen_grows hw hi
  have hf : Function.closure n.store.nextIdentity d n.scope =
      .closure m.store.nextIdentity d m.scope := by
    rw [S.nextIdentity_eq hr, show n.scope = m.scope from congrArg Context.scope hn]
  unfold Eval.closure
  rw [hf]
  exact .ok (S.ok_closure hr hseen)
    ⟨S.takeIdentity hr, m.store.grows_takeIdentity, rfl, rfl, #[], by simp, by simp⟩

theorem respects_openInside (k : ScopeId) (kind : ScopeKind) (hk : S.seen w k) :
    S.Respects w c c' S.home (Eval.openInside k kind) (Eval.openInside k kind) := by
  intro m n hw hm hn hr
  have hseen : S.seen m.store k := S.seen_grows hw hk
  unfold Eval.openInside
  rw [S.nextScope_eq hr]
  exact .ok (S.home_openInside hr hseen)
    ⟨S.openInside hr hseen, m.store.grows_openInside k kind, rfl, rfl, #[], by simp, by simp⟩

theorem respects_openBlock (hi : S.seen w c.scope) :
    S.Respects w c c S.home Eval.openBlock Eval.openBlock := by
  rintro m n hw rfl hn hr
  have h := S.respects_openInside m.scope .block hi hw rfl hn hr
  have hscope : n.scope = m.scope := congrArg Context.scope hn
  unfold Eval.openBlock
  rwa [hscope]

theorem respects_print (line : String) :
    S.Respects w c c' (fun _ _ => True) (Eval.print line) (Eval.print line) :=
  fun _ _ _ _ _ hr => .ok trivial ⟨hr, .refl _, rfl, rfl, #[line], by simp, by simp⟩

theorem respects_ofExcept (span : Span) {r : Except Cause Value}
    (hr : ∀ v, r = .ok v → v.type ≠ .function) :
    S.Respects w c c' S.ok (Eval.ofExcept span r) (Eval.ofExcept span r) := by
  cases r with
  | ok v => exact respects_pure fun _ _ => S.ok_data (hr v rfl)
  | error e => exact respects_throw _

theorem respects_callee (span : Span) {v : Value} (hv : S.ok w v) :
    S.Respects w c c' (fun s f => S.ok s (.function f)) (Eval.callee span v)
      (Eval.callee span v) := by
  cases v with
  | function f => exact respects_pure fun _ hw => S.ok_grows hw hv
  | nil | bool | number | string => exact respects_throw _

/-! ## The evaluator -/

/-- The calls that two evaluations make end alike, in every scope. -/
def RespectsCalls (S : Simulation) (c : Context) (call call' : Function → List Value → Eval Value) :
    Prop :=
  ∀ ⦃w i f args⦄, S.ok w (.function f) → (∀ v ∈ args, S.ok w v) →
    S.Respects w (c.enter i) (c.enter i) S.ok (call f args) (call' f args)

/-- The value of a completion may be in flight. -/
def okEnd (S : Simulation) (s : Store) (r : Completion) : Prop := ∀ v, r = .returned v → S.ok s v

theorem okEnd_normal (s : Store) : S.okEnd s .normal := by
  intro v h
  cases h

theorem okEnd_returned {s : Store} {v : Value} (h : S.ok s v) : S.okEnd s (.returned v) := by
  rintro v ⟨⟩
  exact h

section

variable {call call' : Function → List Value → Eval Value} (hcall : S.RespectsCalls c call call')
include hcall

mutual

/-- Evaluation respects a simulation if the calls that it makes do. -/
theorem respects_eval : ∀ (e : Expr) {w : Store} {i : ScopeId}, S.seen w i →
    S.Respects w (c.enter i) (c.enter i) S.ok (e.eval call) (e.eval call')
  | .literal _ l, w, i, _ => by
    simp only [Expr.eval]
    exact respects_pure fun _ _ => S.ok_data (Value.type_ofLiteral l)
  | .ident id, w, i, hi => by
    simp only [Expr.eval]
    exact respects_lookup id hi
  | .assign span target e, w, i, hi => by
    simp only [Expr.eval]
    refine respects_bind (respects_eval e hi) fun v w' hw hv => ?_
    exact respects_assign span target.name (S.seen_grows hw hi) hv
  | .unary span op e, w, i, hi => by
    simp only [Expr.eval]
    refine respects_bind (respects_eval e hi) fun v w' _ _ => ?_
    exact respects_ofExcept span fun _ h => UnaryOp.type_apply h
  | .binary span op l r, w, i, hi => by
    simp only [Expr.eval]
    refine respects_bind (respects_eval l hi) fun a w' hw _ => ?_
    refine respects_bind (respects_eval r (S.seen_grows hw hi)) fun b _ _ _ => ?_
    exact respects_ofExcept span fun _ h => BinaryOp.type_apply h
  | .logical _ op l r, w, i, hi => by
    simp only [Expr.eval]
    refine respects_bind (respects_eval l hi) fun a w' hw ha => ?_
    split
    · exact respects_pure fun _ hw' => S.ok_grows hw' ha
    · exact respects_eval r (S.seen_grows hw hi)
  | .call span f args, w, i, hi => by
    simp only [Expr.eval]
    refine respects_bind (respects_eval f hi) fun v w₁ h₁ hv => ?_
    refine respects_bind (respects_callee span hv) fun g w₂ h₂ hg => ?_
    have hi₂ : S.seen w₂ i := S.seen_grows (h₁.trans h₂) hi
    refine respects_bind (respects_evalAll args hi₂) fun vs w₃ h₃ hvs => ?_
    exact respects_orAt span (hcall (S.ok_grows h₃ hg) hvs)
  | .function d, w, i, hi => by
    simp only [Expr.eval]
    exact respects_closure d hi

theorem respects_evalAll : ∀ (es : List Expr) {w : Store} {i : ScopeId}, S.seen w i →
    S.Respects w (c.enter i) (c.enter i) (fun s vs => ∀ v ∈ vs, S.ok s v) (Expr.evalAll call es)
      (Expr.evalAll call' es)
  | [], w, i, _ => by
    simp only [Expr.evalAll]
    exact respects_pure fun _ _ => by simp
  | e :: es, w, i, hi => by
    simp only [Expr.evalAll]
    refine respects_bind (respects_eval e hi) fun v w₁ h₁ hv => ?_
    refine respects_bind (respects_evalAll es (S.seen_grows h₁ hi)) fun vs w₂ h₂ hvs => ?_
    refine respects_pure fun s hs u hu => ?_
    rcases List.mem_cons.1 hu with rfl | hu
    · exact S.ok_grows (h₂.trans hs) hv
    · exact S.ok_grows hs (hvs u hu)

end

mutual

/-- Execution respects a simulation, from a scope that names may be declared in. -/
theorem respects_exec : ∀ (s : Stmt) {w : Store} {i : ScopeId}, S.home w i →
    S.Respects w (c.enter i) (c.enter i) S.okEnd (s.exec call) (s.exec call')
  | .expr _ e, w, i, hi => by
    simp only [Stmt.exec]
    refine respects_bind (respects_eval hcall e (S.seen_of_home hi)) fun _ _ _ _ => ?_
    exact respects_pure fun _ _ => okEnd_normal _
  | .print _ e, w, i, hi => by
    simp only [Stmt.exec]
    refine respects_bind (respects_eval hcall e (S.seen_of_home hi)) fun v _ _ _ => ?_
    refine respects_bind (respects_print v.render) fun _ _ _ _ => ?_
    exact respects_pure fun _ _ => okEnd_normal _
  | .ret _ none, w, i, _ => by
    simp only [Stmt.exec]
    exact respects_pure fun _ _ => okEnd_returned (S.ok_data (by simp [Value.type]))
  | .ret _ (some e), w, i, hi => by
    simp only [Stmt.exec]
    refine respects_bind (respects_eval hcall e (S.seen_of_home hi)) fun v _ _ hv => ?_
    exact respects_pure fun _ hw => okEnd_returned (S.ok_grows hw hv)
  | .block _ body, w, i, hi => by
    simp only [Stmt.exec]
    refine respects_bind (respects_openBlock (S.seen_of_home hi)) fun k _ _ hk => ?_
    exact respects_inScope k (respects_execAll body hk)
  | .bind _ id none, w, i, hi => by
    simp only [Stmt.exec]
    refine respects_bind (respects_declare id hi (S.ok_data (by simp [Value.type])))
      fun _ _ _ _ => ?_
    exact respects_pure fun _ _ => okEnd_normal _
  | .bind _ id (some e), w, i, hi => by
    simp only [Stmt.exec]
    refine respects_bind (respects_eval hcall e (S.seen_of_home hi)) fun v _ hw hv => ?_
    refine respects_bind (respects_declare id (S.home_grows hw hi) hv) fun _ _ _ _ => ?_
    exact respects_pure fun _ _ => okEnd_normal _
  | .function d, w, i, hi => by
    simp only [Stmt.exec]
    refine respects_bind (respects_closure d (S.seen_of_home hi)) fun v _ hw hv => ?_
    cases d.id with
    | some id =>
      refine respects_bind (respects_declare id (S.home_grows hw hi) hv) fun _ _ _ _ => ?_
      exact respects_pure fun _ _ => okEnd_normal _
    | none => exact respects_pure fun _ _ => okEnd_normal _
  | .cond _ test a none, w, i, hi => by
    simp only [Stmt.exec]
    refine respects_bind (respects_eval hcall test (S.seen_of_home hi)) fun v _ hw _ => ?_
    split
    · exact respects_exec a (S.home_grows hw hi)
    · exact respects_pure fun _ _ => okEnd_normal _
  | .cond _ test a (some b), w, i, hi => by
    simp only [Stmt.exec]
    refine respects_bind (respects_eval hcall test (S.seen_of_home hi)) fun v _ hw _ => ?_
    split
    · exact respects_exec a (S.home_grows hw hi)
    · exact respects_exec b (S.home_grows hw hi)

theorem respects_execAll : ∀ (ss : List Stmt) {w : Store} {i : ScopeId}, S.home w i →
    S.Respects w (c.enter i) (c.enter i) S.okEnd (Stmt.execAll call ss) (Stmt.execAll call' ss)
  | [], w, i, _ => by
    simp only [Stmt.execAll]
    exact respects_pure fun _ _ => okEnd_normal _
  | s :: ss, w, i, hi => by
    simp only [Stmt.execAll]
    refine respects_bind (respects_exec s hi) fun r _ hw hr => ?_
    cases r with
    | normal => exact respects_execAll ss (S.home_grows hw hi)
    | returned v => exact respects_pure fun _ hw' => okEnd_returned (S.ok_grows hw' (hr v rfl))

end

/-- A call goes on in a scope of its own, so it does not matter which scopes it comes from. -/
theorem respects_invoke (d : FunctionDef) {k : ScopeId} {args : List Value} (hk : S.seen w k)
    (hargs : ∀ v ∈ args, S.ok w v) :
    S.Respects w (c.enter i) (c.enter j) S.ok (d.invoke call k args) (d.invoke call' k args) := by
  unfold FunctionDef.invoke
  refine respects_bind (respects_openInside k _ hk) fun frame w₁ h₁ hframe => ?_
  refine respects_bind (respects_declareAll frame d.params hframe fun v hv =>
    S.ok_grows h₁ (hargs v hv)) fun _ w₂ h₂ _ => ?_
  refine respects_bind (respects_inScope frame
    (respects_execAll hcall d.body (S.home_grows h₂ hframe))) fun r _ _ hr => ?_
  cases r with
  | normal => exact respects_pure fun _ _ => S.ok_data (by simp [Value.type])
  | returned v => exact respects_pure fun _ hw => S.ok_grows hw (hr v rfl)

end

/-! ## Calls -/

/-- Calls end alike from any two scopes, by induction on the number of calls that may still
become active. -/
theorem respects_callWithin (host : Host) : ∀ (budget : Nat) {w : Store} {c : Context}
    {i j : ScopeId} {f : Function} {args : List Value}, S.ok w (.function f) →
    (∀ v ∈ args, S.ok w v) → S.Respects w (c.enter i) (c.enter j) S.ok
      (host.callWithin budget f args) (host.callWithin budget f args)
  | budget, w, c, i, j, f, args, hf, hargs => by
    rw [Host.callWithin.eq_def]
    simp only
    split
    · exact respects_throw _
    cases budget with
    | zero =>
      intro m n _ hm hn hr
      have hconfig : n.config = m.config :=
        (congrArg Context.config hn).trans (congrArg Context.config hm).symm
      simp only [hconfig]
      exact .error (.refl hr)
    | succ budget =>
      cases f with
      | closure id d k =>
        have hcall : S.RespectsCalls c.deeper (host.callWithin budget) (host.callWithin budget) :=
          fun _ _ _ _ hf hargs => respects_callWithin host budget hf hargs
        exact respects_inCall (respects_invoke hcall d (S.seen_captured hf) hargs)
      | native id nat =>
        refine respects_inCall fun m n _ _ _ hr => ?_
        cases h : nat.apply host.clock args with
        | ok v => exact .ok (S.ok_data (Native.type_apply h)) (.refl hr)
        | error e => exact .error (.refl hr)

theorem remaining_of_context (h : m.context = c.enter i) : m.remaining = c.remaining :=
  congrArg Context.remaining h

theorem respects_call (host : Host) {f : Function} {args : List Value} (hf : S.ok w (.function f))
    (hargs : ∀ v ∈ args, S.ok w v) :
    S.Respects w (c.enter i) (c.enter j) S.ok (host.call f args) (host.call f args) := by
  intro m n hw hm hn hr
  unfold Host.call
  rw [remaining_of_context hm, remaining_of_context hn]
  exact respects_callWithin host c.remaining hf hargs hw hm hn hr

theorem respectsCalls_call (host : Host) (c : Context) : S.RespectsCalls c host.call host.call :=
  fun _ _ _ _ hf hargs => respects_call host hf hargs

end Simulation

/-! ## Invariants -/

/-- A property of the store of one run that the operations on stores keep. -/
structure Invariant where
  inv : Store → Prop
  /-- The values that may be in flight. -/
  ok : Store → Value → Prop
  /-- The scopes that a run may be in. -/
  seen : Store → ScopeId → Prop
  /-- The scopes that a run may declare names in. -/
  home : Store → ScopeId → Prop
  ok_grows : ∀ {s t v}, s.Grows t → ok s v → ok t v
  seen_grows : ∀ {s t i}, s.Grows t → seen s i → seen t i
  home_grows : ∀ {s t i}, s.Grows t → home s i → home t i
  seen_of_home : ∀ {s i}, home s i → seen s i
  ok_data : ∀ {s v}, v.type ≠ .function → ok s v
  seen_captured : ∀ {s n d i}, ok s (.function (.closure n d i)) → seen s i
  ok_get? : ∀ {s i x v}, inv s → seen s i → s.get? i x = some v → ok s v
  assign : ∀ {s i x j v}, inv s → seen s i → s.resolve? i x = some j → ok s v → inv (s.bind j x v)
  declare : ∀ {s i x v}, inv s → home s i → ok s v → inv (s.bind i x v)
  takeIdentity : ∀ {s}, inv s → inv s.takeIdentity
  ok_closure : ∀ {s d i}, inv s → seen s i →
    ok s.takeIdentity (.function (.closure s.nextIdentity d i))
  openInside : ∀ {s i k}, inv s → seen s i → inv (s.openInside i k)
  home_openInside : ∀ {s i k}, inv s → seen s i → home (s.openInside i k) s.nextScope

namespace Invariant

variable {I : Invariant} {α : Type} {m : Machine} {Q : Store → α → Prop}

/-- Two runs in one store, which has the property. -/
def simulation (I : Invariant) : Simulation where
  rel s t := t = s ∧ I.inv s
  ok := I.ok
  seen := I.seen
  home := I.home
  ok_grows := I.ok_grows
  seen_grows := I.seen_grows
  home_grows := I.home_grows
  seen_of_home := I.seen_of_home
  ok_data := I.ok_data
  seen_captured := I.seen_captured
  get?_eq h _ := by rw [h.1]
  ok_get? h hi hv := I.ok_get? h.2 hi hv
  resolve?_eq h _ := by rw [h.1]
  assign h hi hj hv := ⟨by rw [h.1], I.assign h.2 hi hj hv⟩
  refuses_eq h _ := by rw [h.1]
  declare h hi hv := ⟨by rw [h.1], I.declare h.2 hi hv⟩
  nextIdentity_eq h := by rw [h.1]
  takeIdentity h := ⟨by rw [h.1], I.takeIdentity h.2⟩
  ok_closure h hi := I.ok_closure h.2 hi
  nextScope_eq h := by rw [h.1]
  openInside h hi := ⟨by rw [h.1], I.openInside h.2 hi⟩
  home_openInside h hi := I.home_openInside h.2 hi

/-- What a computation that respects an invariant leaves. -/
theorem kept {x : Eval α} (h : I.simulation.Respects m.store m.context m.context Q x x)
    (hm : I.inv m.store) : I.inv (x.final m).store ∧ m.store.Grows (x.final m).store ∧
      (x.final m).context = m.context ∧ ∀ a, x.outcome m = .ok a → Q (x.final m).store a := by
  obtain ⟨-, hs, hQ⟩ := h.ends (n := m) ⟨rfl, hm⟩
  exact ⟨hs.rel.2, hs.grows, hs.left, hQ⟩

end Invariant

end Scoped
