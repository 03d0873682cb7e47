import Scoped.Interpreter
import Scoped.Proofs.Alike
import Scoped.Proofs.Context

/-!
# Runs in lockstep

A `Coupling` is about two runs of programs that are alike, in stores that correspond to each
other, the second run with at least as many calls to become active as the first one. The runs
go in lockstep : they end with values that are alike, or fail with one cause at places that
correspond, and print the same lines. The one exception are the causes of `stops`, with which
the first run may fail where the second one goes on; then the lines of the first run are
those that the second one began with.

`Coupling.Couples` is the judgment about two computations, with a rule for each construct, and
`couples_execAll` the result, by induction over the syntax and over the calls that the first
run may still make. `Coupling.results_execute` says it of the runs of two programs.
-/

set_option linter.unusedSectionVars false

namespace Scoped

variable {α β γ δ : Type}

/-! ## Output -/

namespace Eval

/-- The computation prints after what was printed before. -/
def Appends (x : Eval α) : Prop := ∀ m, ∃ lines, (x.final m).printed = m.printed ++ lines

theorem appends_of_respects {Q : Store → α → Prop} {x : Eval α}
    (h : ∀ m : Machine, Simulation.same.Respects m.store m.context m.context Q x x) :
    x.Appends := by
  intro m
  obtain ⟨-, hsteps, -⟩ := (h m).ends (n := m) ⟨rfl, trivial⟩
  obtain ⟨lines, hlines, -⟩ := hsteps.printed
  exact ⟨lines, hlines⟩

theorem appends_of_printed {x : Eval α} (h : ∀ m, (x.final m).printed = m.printed) : x.Appends :=
  fun m => ⟨#[], by rw [h m, Array.append_empty]⟩

@[simp]
theorem appends_pure (a : α) : Appends (pure a) := appends_of_printed fun _ => rfl

theorem appends_bind {x : Eval α} {f : α → Eval β} (hx : x.Appends) (hf : ∀ a, (f a).Appends) :
    Appends (x >>= f) := by
  intro m
  obtain ⟨lines, hlines⟩ := hx m
  unfold Eval.final at hlines ⊢
  cases h : x m with
  | ok a m' =>
    obtain ⟨lines', hlines'⟩ := hf a m'
    rw [h] at hlines
    rw [Eval.bind_ok h]
    exact ⟨lines ++ lines', by rw [← Array.append_assoc, ← hlines]; exact hlines'⟩
  | error e m' =>
    rw [h] at hlines
    rw [Eval.bind_error h]
    exact ⟨lines, hlines⟩

@[simp]
theorem appends_assign (span : Span) (x : String) (v : Value) : Appends (assign span x v) := by
  refine appends_of_printed fun m => ?_
  unfold final assign
  cases m.store.resolve? m.scope x <;> rfl

@[simp]
theorem appends_ofExcept (span : Span) (r : Except Cause Value) : Appends (ofExcept span r) := by
  cases r <;> exact appends_of_printed fun _ => rfl

@[simp]
theorem appends_callee (span : Span) (v : Value) : Appends (callee span v) := by
  cases v <;> exact appends_of_printed fun _ => rfl

@[simp]
theorem appends_declareIn (i : ScopeId) (id : Ident) (v : Value) :
    Appends (declareIn i id v) := by
  refine appends_of_printed fun m => ?_
  unfold final declareIn
  cases m.store.refuses i id.name <;> rfl

@[simp]
theorem appends_declare (id : Ident) (v : Value) : Appends (declare id v) :=
  fun m => appends_declareIn m.scope id v m

theorem appends_declareAll (i : ScopeId) : ∀ (ids : List Ident) (vs : List Value),
    Appends (declareAll i ids vs)
  | [], _ | _ :: _, [] => appends_pure ()
  | id :: ids, v :: vs =>
    appends_bind (appends_declareIn i id v) fun _ => appends_declareAll i ids vs

@[simp]
theorem appends_print (line : String) : Appends (print line) := fun m =>
  ⟨#[line], by simp [final, print]⟩

theorem appends_orAt {x : Eval Value} (span : Span) (hx : x.Appends) : Appends (orAt span x) := by
  intro m
  obtain ⟨lines, hlines⟩ := hx m
  unfold final orAt at *
  cases h : x m <;> rw [h] at hlines <;> exact ⟨lines, hlines⟩

theorem appends_inScope {x : Eval α} (i : ScopeId) (hx : x.Appends) : Appends (inScope i x) := by
  intro m
  obtain ⟨lines, hlines⟩ := hx (m.enter i)
  unfold final inScope at *
  cases h : x (m.enter i) <;> rw [h] at hlines <;> exact ⟨lines, hlines⟩

end Eval

namespace Host

variable (host : Host)

@[simp]
theorem appends_eval (e : Expr) : (e.eval host.call).Appends :=
  Eval.appends_of_respects fun m =>
    Simulation.respects_eval (Simulation.respectsCalls_call host m.context) e (i := m.scope) trivial

@[simp]
theorem appends_evalAll (es : List Expr) : (Expr.evalAll host.call es).Appends :=
  Eval.appends_of_respects fun m =>
    Simulation.respects_evalAll (Simulation.respectsCalls_call host m.context) es (i := m.scope)
      trivial

@[simp]
theorem appends_exec (s : Stmt) : (s.exec host.call).Appends :=
  Eval.appends_of_respects fun m =>
    Simulation.respects_exec (Simulation.respectsCalls_call host m.context) s (i := m.scope) trivial

@[simp]
theorem appends_execAll (ss : List Stmt) : (Stmt.execAll host.call ss).Appends :=
  Eval.appends_of_respects fun m =>
    Simulation.respects_execAll (Simulation.respectsCalls_call host m.context) ss (i := m.scope)
      trivial

@[simp]
theorem appends_call (f : Function) (args : List Value) : (host.call f args).Appends :=
  Eval.appends_of_respects (Q := Simulation.same.ok) fun m =>
    Simulation.respectsCalls_call host m.context (i := m.scope) trivial fun _ _ => trivial

end Host

/-! ## Couplings -/

/-- A type error. -/
def Cause.IsTypeError (c : Cause) : Prop := ∃ fault, c = .typeError fault

/-- A name was refused. -/
def Cause.IsRedeclaration (c : Cause) : Prop := ∃ x, c = .redeclaration x

/-- What two runs in lockstep have in common. -/
structure Coupling extends Placement where
  /-- The configuration of the first run. -/
  left : Config
  /-- The configuration of the second run. -/
  right : Config
  /-- The causes with which the first run may fail where the second one goes on. -/
  stops : Cause → Prop
  /-- The stores that correspond to each other. -/
  rel : Store → Store → Prop
  limit_le : left.maxCallDepth ≤ right.maxCallDepth
  limit : left.maxCallDepth = right.maxCallDepth ∨ stops (.stackOverflow left.maxCallDepth)
  get? : ∀ {s t}, rel s t → ∀ i x, Option.Rel (Value.Alike toPlacement) (s.get? i x) (t.get? i x)
  resolve? : ∀ {s t}, rel s t → ∀ i x, t.resolve? i x = s.resolve? i x
  bind : ∀ {s t v w}, rel s t → v.Alike toPlacement w → ∀ i x, rel (s.bind i x v) (t.bind i x w)
  refuses_of : ∀ {s t i x}, rel s t → t.refuses i x = true → s.refuses i x = true
  refuses : ∀ {s t i x}, rel s t → s.refuses i x = true →
    t.refuses i x = true ∨ stops (.redeclaration x)
  /-- Whether a name may be refused in both runs. -/
  refusing : Prop
  refusing_of : ∀ {s t i x}, rel s t → t.refuses i x = true → refusing
  nextIdentity : ∀ {s t}, rel s t → t.nextIdentity = s.nextIdentity
  takeIdentity : ∀ {s t}, rel s t → rel s.takeIdentity t.takeIdentity
  nextScope : ∀ {s t}, rel s t → t.nextScope = s.nextScope
  openInside : ∀ {s t}, rel s t → ∀ i k, rel (s.openInside i k) (t.openInside i k)

namespace Coupling

variable {C : Coupling} {d : Nat} {m n m' n' m'' n'' : Machine} {host : Host}

/-- Two machines at corresponding moments, with `d` active calls. -/
structure Pairs (C : Coupling) (d : Nat) (m n : Machine) : Prop where
  rel : C.rel m.store n.store
  left : m.config = C.left
  right : n.config = C.right
  scope : n.scope = m.scope
  depth_left : m.depth = d
  depth_right : n.depth = d

/-- The same lines were printed. -/
def Prints (m n m' n' : Machine) : Prop :=
  ∃ lines, m'.printed = m.printed ++ lines ∧ n'.printed = n.printed ++ lines

theorem Prints.refl (m n : Machine) : Prints m n m n := ⟨#[], by simp, by simp⟩

theorem Prints.trans (h : Prints m n m' n') (h' : Prints m' n' m'' n'') :
    Prints m n m'' n'' := by
  obtain ⟨l, hm, hn⟩ := h
  obtain ⟨l', hm', hn'⟩ := h'
  exact ⟨l ++ l', by rw [hm', hm, Array.append_assoc], by rw [hn', hn, Array.append_assoc]⟩

/-- What the two runs do from one pair of machines to the next. -/
structure Steps (C : Coupling) (d : Nat) (m n m' n' : Machine) : Prop where
  pairs : C.Pairs d m' n'
  scope : m'.scope = m.scope
  prints : Prints m n m' n'

theorem Steps.trans (h : C.Steps d m n m' n') (h' : C.Steps d m' n' m'' n'') :
    C.Steps d m n m'' n'' :=
  ⟨h'.pairs, h'.scope.trans h.scope, h.prints.trans h'.prints⟩

theorem Pairs.refl (h : C.Pairs d m n) : C.Steps d m n m n := ⟨h, rfl, .refl m n⟩

/-- One cause, at places that correspond. -/
inductive Located (C : Coupling) : Error → Error → Prop
  | mk {c : Cause} {s t : Span} : C.arises c s t → (c.IsRedeclaration → C.refusing) →
    Located C ⟨c, some s⟩ ⟨c, some t⟩

theorem Located.of_undefined {x : String} {s t : Span} (h : C.arises (.undefinedVariable x) s t) :
    C.Located ⟨.undefinedVariable x, some s⟩ ⟨.undefinedVariable x, some t⟩ :=
  .mk h (by rintro ⟨y, ⟨⟩⟩)

theorem Located.of_typeError {f : TypeFault} {s t : Span} (h : C.arises (.typeError f) s t) :
    C.Located ⟨.typeError f, some s⟩ ⟨.typeError f, some t⟩ :=
  .mk h (by rintro ⟨y, ⟨⟩⟩)

theorem Located.of_call {c : Cause} {s t : Span} (hc : c.OfCall) (h : C.arises c s t) :
    C.Located ⟨c, some s⟩ ⟨c, some t⟩ :=
  .mk h (by
    rintro ⟨y, rfl⟩
    exact hc.elim)

/-- The errors of calls : those that have a place already, and those of the call itself. -/
inductive Raised (C : Coupling) : Error → Error → Prop
  | located {e e' : Error} : C.Located e e' → Raised C e e'
  | bare {c : Cause} : c.OfCall → Raised C ⟨c, none⟩ ⟨c, none⟩

/-- The machine that is left. -/
def machineLeft : EStateM.Result Error Machine α → Machine
  | .ok _ m | .error _ m => m

theorem machineLeft_eq (x : Eval α) (m : Machine) : machineLeft (x m) = x.final m := by
  unfold machineLeft Eval.final
  cases x m <;> rfl

/-- How the two runs end : both with values, both with errors, or the first one with an error
that stops it while the second one goes on and prints what it prints after the same lines. -/
inductive Ends (C : Coupling) (d : Nat) (E : Error → Error → Prop) (Q : α → β → Prop)
    (m n : Machine) : EStateM.Result Error Machine α → EStateM.Result Error Machine β → Prop
  | ok {a b m' n'} : Q a b → C.Steps d m n m' n' → Ends C d E Q m n (.ok a m') (.ok b n')
  | error {e e' m' n'} : E e e' → C.Steps d m n m' n' →
    Ends C d E Q m n (.error e m') (.error e' n')
  | stopped {e m' r} : C.stops e.cause → (∃ lines more, m'.printed = m.printed ++ lines ∧
      (machineLeft r).printed = n.printed ++ lines ++ more) → Ends C d E Q m n (.error e m') r

/-- From corresponding moments the two computations end in correspondence. -/
def Couples (C : Coupling) (d : Nat) (E : Error → Error → Prop) (Q : α → β → Prop) (x : Eval α)
    (y : Eval β) : Prop :=
  ∀ ⦃m n⦄, C.Pairs d m n → C.Ends d E Q m n (x m) (y n)

variable {E : Error → Error → Prop} {Q : α → β → Prop} {R : γ → δ → Prop}

theorem Ends.after (h : C.Steps d m n m' n') {r : EStateM.Result Error Machine α}
    {r' : EStateM.Result Error Machine β} (hr : C.Ends d E Q m' n' r r') :
    C.Ends d E Q m n r r' := by
  cases hr with
  | ok hQ h' => exact .ok hQ (h.trans h')
  | error hE h' => exact .error hE (h.trans h')
  | stopped hs h' =>
    obtain ⟨l, hm, hn⟩ := h.prints
    obtain ⟨lines, more, hm', hn'⟩ := h'
    exact .stopped hs ⟨l ++ lines, more, by rw [hm', hm, Array.append_assoc],
      by rw [hn', hn]; simp only [Array.append_assoc]⟩

theorem couples_pure {a : α} {b : β} (h : Q a b) : C.Couples d E Q (pure a) (pure b) :=
  fun _ _ hp => .ok h hp.refl

theorem couples_throw {e e' : Error} (h : E e e') : C.Couples d E Q (throw e) (throw e') :=
  fun _ _ hp => .error h hp.refl

/-- One computation after the other. If the first run stops in the first computation, the second
run may go on to what comes next. -/
theorem couples_bind {x : Eval α} {y : Eval β} {f : α → Eval γ} {g : β → Eval δ}
    (hx : C.Couples d E Q x y) (hf : ∀ a b, Q a b → C.Couples d E R (f a) (g b))
    (hg : ∀ b, (g b).Appends) : C.Couples d E R (x >>= f) (y >>= g) := by
  intro m n hp
  have h := hx hp
  generalize hxm : x m = r at h
  generalize hyn : y n = r' at h
  cases h with
  | ok hQ h =>
    rw [Eval.bind_ok hxm, Eval.bind_ok hyn]
    exact .after h (hf _ _ hQ h.pairs)
  | error hE h =>
    rw [Eval.bind_error hxm, Eval.bind_error hyn]
    exact .error hE h
  | stopped hs h =>
    rw [Eval.bind_error hxm]
    obtain ⟨lines, more, hm, hn⟩ := h
    cases r' with
    | error e' n' =>
      rw [Eval.bind_error hyn]
      exact .stopped hs ⟨lines, more, hm, hn⟩
    | ok b n' =>
      rw [Eval.bind_ok hyn]
      obtain ⟨lines', hlines'⟩ := hg b n'
      refine .stopped hs ⟨lines, more ++ lines', hm, ?_⟩
      have hn' : n'.printed = n.printed ++ lines ++ more := hn
      rw [machineLeft_eq, hlines', hn', Array.append_assoc]

/-- An error of a call arises at the call, unless it has a place. -/
theorem couples_orAt {Q : Value → Value → Prop} {x y : Eval Value} {s t : Span}
    (hx : C.Couples d C.Raised Q x y) (hs : ∀ c : Cause, c.OfCall → C.arises c s t) :
    C.Couples d C.Located Q (Eval.orAt s x) (Eval.orAt t y) := by
  intro m n hp
  have h := hx hp
  unfold Eval.orAt
  generalize x m = r at h ⊢
  generalize y n = r' at h ⊢
  cases h with
  | ok hQ h => exact .ok hQ h
  | error hE h =>
    cases hE with
    | located hE =>
      obtain ⟨hc, hrefusing⟩ := hE
      exact .error (.mk hc hrefusing) h
    | bare hc => exact .error (.of_call hc (hs _ hc)) h
  | stopped hc h =>
    cases r' <;> exact .stopped hc h

theorem couples_inScope {x : Eval α} {y : Eval β} (k : ScopeId) (hx : C.Couples d E Q x y) :
    C.Couples d E Q (Eval.inScope k x) (Eval.inScope k y) := by
  intro m n hp
  have h := hx (m := m.enter k) (n := n.enter k)
    ⟨hp.rel, hp.left, hp.right, rfl, hp.depth_left, hp.depth_right⟩
  unfold Eval.inScope
  generalize x (m.enter k) = r at h ⊢
  generalize y (n.enter k) = r' at h ⊢
  have back : ∀ {m' n'}, C.Steps d (m.enter k) (n.enter k) m' n' →
      C.Steps d m n (m'.enter m.scope) (n'.enter n.scope) := fun h =>
    ⟨⟨h.pairs.rel, h.pairs.left, h.pairs.right, hp.scope, h.pairs.depth_left,
      h.pairs.depth_right⟩, rfl, h.prints⟩
  cases h with
  | ok hQ h => exact .ok hQ (back h)
  | error hE h => exact .error hE (back h)
  | stopped hs h => cases r' <;> exact .stopped hs h

theorem couples_inCall {x : Eval α} {y : Eval β} (hx : C.Couples (d + 1) E Q x y) :
    C.Couples d E Q (Eval.inCall x) (Eval.inCall y) := by
  intro m n hp
  have h := hx (m := m.deeper) (n := n.deeper)
    ⟨hp.rel, hp.left, hp.right, hp.scope, congrArg (· + 1) hp.depth_left,
      congrArg (· + 1) hp.depth_right⟩
  unfold Eval.inCall
  generalize x m.deeper = r at h ⊢
  generalize y n.deeper = r' at h ⊢
  have back : ∀ {m' n'}, C.Steps (d + 1) m.deeper n.deeper m' n' →
      C.Steps d m n m'.shallower n'.shallower := fun h =>
    ⟨⟨h.pairs.rel, h.pairs.left, h.pairs.right, h.pairs.scope,
      congrArg (· - 1) h.pairs.depth_left, congrArg (· - 1) h.pairs.depth_right⟩, h.scope,
      h.prints⟩
  cases h with
  | ok hQ h => exact .ok hQ (back h)
  | error hE h => exact .error hE (back h)
  | stopped hs h => cases r' <;> exact .stopped hs h

/-! ## The operations of a run -/

/-- A machine after a change to its store. -/
theorem Pairs.withStores (hp : C.Pairs d m n) {s t : Store} (h : C.rel s t) :
    C.Steps d m n { m with store := s } { n with store := t } :=
  ⟨⟨h, hp.left, hp.right, hp.scope, hp.depth_left, hp.depth_right⟩, rfl, #[], by simp, by simp⟩

theorem couples_lookup {x y : Ident} (hxy : x.Matches C.toPlacement y)
    (hc : C.arises (.undefinedVariable x.name) x.span y.span) :
    C.Couples d C.Located (Value.Alike C.toPlacement) (Eval.lookup x) (Eval.lookup y) := by
  intro m n hp
  have h := C.get? hp.rel m.scope x.name
  unfold Eval.lookup Store.get
  rw [hp.scope, hxy.name]
  generalize m.store.get? m.scope x.name = v at h ⊢
  generalize n.store.get? m.scope x.name = w at h ⊢
  cases h with
  | some hvw => exact .ok hvw hp.refl
  | none => exact .error (.of_undefined hc) hp.refl

theorem couples_assign {s t : Span} {x : String} {v w : Value}
    (hc : C.arises (.undefinedVariable x) s t) (hvw : v.Alike C.toPlacement w) :
    C.Couples d C.Located (Value.Alike C.toPlacement) (Eval.assign s x v) (Eval.assign t x w) := by
  intro m n hp
  have hres : n.store.resolve? n.scope x = m.store.resolve? m.scope x := by
    rw [hp.scope, C.resolve? hp.rel]
  rw [Eval.assign_eq, Eval.assign_eq, hres]
  cases m.store.resolve? m.scope x with
  | some j => exact .ok hvw (hp.withStores (C.bind hp.rel hvw j x))
  | none => exact .error (.of_undefined hc) hp.refl

theorem couples_declareIn (k : ScopeId) {x y : Ident} {v w : Value} (hxy : x.Alike C.toPlacement y)
    (hvw : v.Alike C.toPlacement w) : C.Couples d C.Located (fun _ _ => True) (Eval.declareIn k x v)
      (Eval.declareIn k y w) := by
  intro m n hp
  unfold Eval.declareIn
  rw [hxy.name]
  cases hm : m.store.refuses k x.name with
  | true =>
    rcases C.refuses hp.rel hm with hn | hs
    · simp only [hn, if_true]
      exact .error (.mk hxy.redeclaration fun _ => C.refusing_of hp.rel hn) hp.refl
    · -- the second run may declare the name and go on
      refine .stopped hs ⟨#[], #[], by simp, ?_⟩
      cases n.store.refuses k x.name <;> simp [machineLeft]
  | false =>
    have hn : n.store.refuses k x.name = false :=
      Bool.eq_false_iff.2 fun hn => by simp [C.refuses_of hp.rel hn] at hm
    simp only [hn]
    exact .ok trivial (hp.withStores (C.bind hp.rel hvw k x.name))

theorem couples_declare {x y : Ident} {v w : Value} (hxy : x.Alike C.toPlacement y)
    (hvw : v.Alike C.toPlacement w) :
    C.Couples d C.Located (fun _ _ => True) (Eval.declare x v) (Eval.declare y w) := by
  intro m n hp
  unfold Eval.declare
  rw [hp.scope]
  exact couples_declareIn m.scope hxy hvw hp

theorem couples_declareAll (k : ScopeId) {xs ys : List Ident}
    (hxs : xs.Forall₂ (Ident.Alike C.toPlacement) ys) : ∀ {vs ws : List Value},
    vs.Forall₂ (Value.Alike C.toPlacement) ws → C.Couples d C.Located (fun _ _ => True)
      (Eval.declareAll k xs vs) (Eval.declareAll k ys ws) := by
  induction hxs with
  | nil => exact fun _ => couples_pure trivial
  | cons hxy _ ih =>
    intro vs ws hvs
    cases hvs with
    | nil => exact couples_pure trivial
    | cons hvw hvs =>
      exact couples_bind (couples_declareIn k hxy hvw) (fun _ _ _ => ih hvs)
        fun _ => Eval.appends_declareAll k _ _

theorem couples_closure {f g : FunctionDef} (hfg : f.Alike C.toPlacement g) :
    C.Couples d E (Value.Alike C.toPlacement) (Eval.closure f) (Eval.closure g) := by
  intro m n hp
  have hg : Function.closure n.store.nextIdentity g n.scope =
      .closure m.store.nextIdentity g m.scope := by
    rw [hp.scope, C.nextIdentity hp.rel]
  unfold Eval.closure
  rw [hg]
  exact .ok (.function (.closure hfg)) (hp.withStores (C.takeIdentity hp.rel))

theorem couples_openInside (k : ScopeId) (kind : ScopeKind) :
    C.Couples d E Eq (Eval.openInside k kind) (Eval.openInside k kind) := by
  intro m n hp
  unfold Eval.openInside
  rw [C.nextScope hp.rel]
  exact .ok rfl (hp.withStores (C.openInside hp.rel k kind))

theorem couples_openBlock : C.Couples d E Eq Eval.openBlock Eval.openBlock := by
  intro m n hp
  unfold Eval.openBlock
  rw [hp.scope]
  exact couples_openInside m.scope .block hp

theorem couples_print (line : String) :
    C.Couples d E (fun _ _ => True) (Eval.print line) (Eval.print line) := by
  intro m n hp
  exact .ok trivial ⟨⟨hp.rel, hp.left, hp.right, hp.scope, hp.depth_left, hp.depth_right⟩, rfl,
    #[line], by simp, by simp⟩

theorem couples_ofExcept {s t : Span} {r : Except Cause Value}
    (hv : ∀ v, r = .ok v → v.type ≠ .function) (he : ∀ c, r = .error c → c.IsTypeError)
    (hc : ∀ fault, C.arises (.typeError fault) s t) :
    C.Couples d C.Located (Value.Alike C.toPlacement) (Eval.ofExcept s r) (Eval.ofExcept t r) := by
  cases r with
  | ok v => exact couples_pure (Value.alike_of_type (hv v rfl))
  | error c =>
    obtain ⟨fault, rfl⟩ := he c rfl
    exact couples_throw (.of_typeError (hc fault))

theorem couples_callee {s t : Span} {v w : Value} (hvw : v.Alike C.toPlacement w)
    (hc : ∀ c : Cause, c.OfCall → C.arises c s t) :
    C.Couples d C.Located (Function.Alike C.toPlacement) (Eval.callee s v) (Eval.callee t w) := by
  cases hvw with
  | function hfg => exact couples_pure hfg
  | nil | bool | number | string => exact couples_throw (.of_call trivial (hc _ trivial))

end Coupling

/-! ## Operators fail with type errors -/

theorem BinaryOp.isTypeError_outcome {op : BinaryOp} {r : Except Overflow Number} {c : Cause}
    (h : op.outcome r = .error c) : c.IsTypeError := by
  cases r with
  | ok n => cases h
  | error o =>
    cases h
    exact ⟨_, rfl⟩

theorem BinaryOp.isTypeError_arithmetic {op : BinaryOp}
    {f : Number → Number → Except Overflow Number} {a b : Value} {c : Cause}
    (h : op.arithmetic f a b = .error c) : c.IsTypeError := by
  unfold arithmetic at h
  split at h
  · exact isTypeError_outcome h
  · cases h
    exact ⟨_, rfl⟩

theorem BinaryOp.isTypeError_division {op : BinaryOp} {z : TypeFault}
    {f : Number → Number → Except Overflow Number} {a b : Value} {c : Cause}
    (h : op.division z f a b = .error c) : c.IsTypeError := by
  unfold division at h
  split at h
  · split at h
    · cases h
      exact ⟨_, rfl⟩
    · exact isTypeError_outcome h
  · cases h
    exact ⟨_, rfl⟩

theorem BinaryOp.isTypeError_ordering {op : BinaryOp} {f : Ordering → Bool} {a b : Value}
    {c : Cause} (h : op.ordering f a b = .error c) : c.IsTypeError := by
  unfold ordering at h
  split at h
  · cases h
  · cases h
    exact ⟨_, rfl⟩

theorem BinaryOp.isTypeError_apply {op : BinaryOp} {a b : Value} {c : Cause}
    (h : op.apply a b = .error c) : c.IsTypeError := by
  cases op with
  | add =>
    simp only [apply, sum] at h
    split at h
    · cases h
    · cases h
    · exact isTypeError_arithmetic h
  | sub | mul => exact isTypeError_arithmetic h
  | div | rem => exact isTypeError_division h
  | lt | gt | le | ge => exact isTypeError_ordering h
  | eq | ne => cases h

theorem UnaryOp.isTypeError_apply {op : UnaryOp} {a : Value} {c : Cause}
    (h : op.apply a = .error c) : c.IsTypeError := by
  cases op with
  | not => cases h
  | minus =>
    simp only [apply] at h
    split at h
    · next n =>
      cases hn : n.neg with
      | ok k => simp [UnaryOp.outcome, hn] at h
      | error k =>
        rw [hn] at h
        cases h
        exact ⟨_, rfl⟩
    · cases h
      exact ⟨_, rfl⟩

theorem Native.isTypeError_apply {n : Native} {clock : Int64} {args : List Value} {c : Cause}
    (h : n.apply clock args = .error c) : c.IsTypeError := by
  unfold Native.apply at h
  split at h <;> cases h <;> exact ⟨_, rfl⟩

/-! ## The evaluator -/

namespace Coupling

variable {C : Coupling} {d : Nat} {host : Host}

/-- Calls with `d` active calls end in correspondence. -/
def CouplesCalls (C : Coupling) (host : Host) (d : Nat) : Prop :=
  ∀ ⦃f g as bs⦄, f.Alike C.toPlacement g → as.Forall₂ (Value.Alike C.toPlacement) bs →
    C.Couples d C.Raised (Value.Alike C.toPlacement) (host.call f as) (host.call g bs)

/-- Both completed without a value, or both with values that are alike. -/
inductive CompletionsAlike (C : Coupling) : Completion → Completion → Prop
  | normal : CompletionsAlike C .normal .normal
  | returned {v w : Value} : v.Alike C.toPlacement w →
    CompletionsAlike C (.returned v) (.returned w)

section

variable (hcall : C.CouplesCalls host d)
include hcall

mutual

/-- Expressions that are alike are evaluated in lockstep if calls are. -/
theorem couples_eval : ∀ {e f : Expr}, e.Alike C.toPlacement f →
    C.Couples d C.Located (Value.Alike C.toPlacement) (e.eval host.call) (f.eval host.call)
  | .literal _ l, f, h => by
    cases h
    simp only [Expr.eval]
    exact couples_pure (Value.alike_of_type (Value.type_ofLiteral l))
  | .ident id, f, h => by
    cases h with
    | ident hid hc =>
      simp only [Expr.eval]
      exact couples_lookup hid hc
  | .assign span target e, f, h => by
    cases h with
    | assign _ htarget hc he =>
      simp only [Expr.eval, htarget.name]
      exact couples_bind (couples_eval he) (fun v w hvw => couples_assign hc hvw) (by simp)
  | .unary span op e, f, h => by
    cases h with
    | unary _ hc he =>
      simp only [Expr.eval]
      refine couples_bind (couples_eval he) (fun v w hvw => ?_) (by simp)
      rw [op.apply_alike hvw]
      exact couples_ofExcept (fun _ => UnaryOp.type_apply) (fun _ => UnaryOp.isTypeError_apply) hc
  | .binary span op l r, f, h => by
    cases h with
    | binary _ hc hl hr =>
      simp only [Expr.eval]
      refine couples_bind (couples_eval hl) (fun a a' ha => ?_) fun _ =>
        Eval.appends_bind (by simp) (by simp)
      refine couples_bind (couples_eval hr) (fun b b' hb => ?_) (by simp)
      rw [op.apply_alike ha hb]
      exact couples_ofExcept (fun _ => BinaryOp.type_apply) (fun _ => BinaryOp.isTypeError_apply) hc
  | .logical _ op l r, f, h => by
    cases h with
    | logical _ hl hr =>
      simp only [Expr.eval]
      refine couples_bind (couples_eval hl) (fun a a' ha => ?_) fun _ => by split <;> simp
      rw [op.decidedBy_alike ha]
      split
      · exact couples_pure ha
      · exact couples_eval hr
  | .call span g args, f, h => by
    cases h with
    | call _ hc hg hargs =>
      simp only [Expr.eval]
      refine couples_bind (couples_eval hg) (fun v w hvw => ?_) fun _ =>
        Eval.appends_bind (by simp) fun _ => Eval.appends_bind (by simp) fun _ =>
          Eval.appends_orAt _ (by simp)
      refine couples_bind (couples_callee hvw hc) (fun f f' hf => ?_) fun _ =>
        Eval.appends_bind (by simp) fun _ => Eval.appends_orAt _ (by simp)
      refine couples_bind (couples_evalAll hargs) (fun vs ws hvs => ?_) fun _ =>
        Eval.appends_orAt _ (by simp)
      exact couples_orAt (hcall hf hvs) hc
  | .function g, f, h => by
    cases h with
    | function hd =>
      simp only [Expr.eval]
      exact couples_closure hd

theorem couples_evalAll : ∀ {es fs : List Expr}, Expr.AlikeAll C.toPlacement es fs →
    C.Couples d C.Located (List.Forall₂ (Value.Alike C.toPlacement)) (Expr.evalAll host.call es)
      (Expr.evalAll host.call fs)
  | [], fs, h => by
    cases h
    simp only [Expr.evalAll]
    exact couples_pure .nil
  | e :: es, fs, h => by
    cases h with
    | cons he hes =>
      simp only [Expr.evalAll]
      refine couples_bind (couples_eval he) (fun v w hvw => ?_) fun _ =>
        Eval.appends_bind (by simp) (by simp)
      refine couples_bind (couples_evalAll hes) (fun vs ws hvs => ?_) (by simp)
      exact couples_pure (.cons hvw hvs)

end

mutual

/-- Statements that are alike are executed in lockstep if calls are. -/
theorem couples_exec : ∀ {a b : Stmt}, a.Alike C.toPlacement b →
    C.Couples d C.Located C.CompletionsAlike (a.exec host.call) (b.exec host.call)
  | .expr _ e, b, h => by
    cases h with
    | expr _ he =>
      simp only [Stmt.exec]
      exact couples_bind (couples_eval hcall he) (fun _ _ _ => couples_pure .normal) (by simp)
  | .print _ e, b, h => by
    cases h with
    | print _ he =>
      simp only [Stmt.exec]
      refine couples_bind (couples_eval hcall he) (fun v w hvw => ?_) fun _ =>
        Eval.appends_bind (by simp) (by simp)
      rw [hvw.render_eq]
      exact couples_bind (couples_print _) (fun _ _ _ => couples_pure .normal) (by simp)
  | .ret _ none, b, h => by
    cases h
    simp only [Stmt.exec]
    exact couples_pure (.returned .nil)
  | .ret _ (some e), b, h => by
    cases h with
    | retValue _ he =>
      simp only [Stmt.exec]
      exact couples_bind (couples_eval hcall he) (fun _ _ h => couples_pure (.returned h)) (by simp)
  | .block _ body, b, h => by
    cases h with
    | block _ hbody =>
      simp only [Stmt.exec]
      refine couples_bind couples_openBlock ?_ fun i => Eval.appends_inScope i (by simp)
      rintro i _ rfl
      exact couples_inScope i (couples_execAll hbody)
  | .bind _ id none, b, h => by
    cases h with
    | bind _ hid =>
      simp only [Stmt.exec]
      exact couples_bind (couples_declare hid .nil) (fun _ _ _ => couples_pure .normal) (by simp)
  | .bind _ id (some e), b, h => by
    cases h with
    | bindValue _ hid he =>
      simp only [Stmt.exec]
      refine couples_bind (couples_eval hcall he) (fun v w hvw => ?_) fun _ =>
        Eval.appends_bind (by simp) (by simp)
      exact couples_bind (couples_declare hid hvw) (fun _ _ _ => couples_pure .normal) (by simp)
  | .function f, b, h => by
    cases h with
    | @function _ g hfg hid =>
      simp only [Stmt.exec]
      refine couples_bind (couples_closure hfg) (fun v w hvw => ?_) fun _ => ?_
      · generalize f.id = x at hid ⊢
        generalize g.id = y at hid ⊢
        cases hid with
        | some hxy =>
          exact couples_bind (couples_declare hxy hvw) (fun _ _ _ => couples_pure .normal) (by simp)
        | none => exact couples_pure .normal
      · cases g.id with
        | some id => exact Eval.appends_bind (by simp) (by simp)
        | none => exact Eval.appends_pure _
  | .cond _ test a none, b, h => by
    cases h with
    | cond _ htest ha =>
      simp only [Stmt.exec]
      refine couples_bind (couples_eval hcall htest) (fun v w hvw => ?_) fun _ => by split <;> simp
      rw [hvw.truthy_eq]
      split
      · exact couples_exec ha
      · exact couples_pure .normal
  | .cond _ test a (some a'), b, h => by
    cases h with
    | condElse _ htest ha ha' =>
      simp only [Stmt.exec]
      refine couples_bind (couples_eval hcall htest) (fun v w hvw => ?_) fun _ => by split <;> simp
      rw [hvw.truthy_eq]
      split
      · exact couples_exec ha
      · exact couples_exec ha'

theorem couples_execAll : ∀ {as bs : List Stmt}, Stmt.AlikeAll C.toPlacement as bs →
    C.Couples d C.Located C.CompletionsAlike (Stmt.execAll host.call as)
      (Stmt.execAll host.call bs)
  | [], bs, h => by
    cases h
    simp only [Stmt.execAll]
    exact couples_pure .normal
  | a :: as, bs, h => by
    cases h with
    | cons ha has =>
      simp only [Stmt.execAll]
      refine couples_bind (couples_exec ha) (fun r r' hr => ?_) fun r => by cases r <;> simp
      cases hr with
      | normal => exact couples_execAll has
      | returned hvw => exact couples_pure (.returned hvw)

end

/-- The body of a function runs in a scope of its own, which has the same number in both runs. -/
theorem couples_invoke {f g : FunctionDef} (hfg : f.Alike C.toPlacement g) (k : ScopeId)
    {as bs : List Value} (hargs : as.Forall₂ (Value.Alike C.toPlacement) bs) :
    C.Couples d C.Located (Value.Alike C.toPlacement) (f.invoke host.call k as)
      (g.invoke host.call k bs) := by
  have hend {x : Completion → Eval Value} (hnormal : (x .normal).Appends)
      (hreturned : ∀ v, (x (.returned v)).Appends) : ∀ r, (x r).Appends
    | .normal => hnormal
    | .returned v => hreturned v
  unfold FunctionDef.invoke
  rw [hfg.name?_eq]
  refine couples_bind (couples_openInside k _) ?_ fun i =>
    Eval.appends_bind (Eval.appends_declareAll i _ _) fun _ =>
      Eval.appends_bind (Eval.appends_inScope i (by simp)) (hend (by simp) (by simp))
  rintro i _ rfl
  refine couples_bind (couples_declareAll i hfg.params hargs) (fun _ _ _ => ?_) fun _ =>
    Eval.appends_bind (Eval.appends_inScope i (by simp)) (hend (by simp) (by simp))
  refine couples_bind (couples_inScope i (couples_execAll hcall hfg.body)) (fun r r' hr => ?_)
    (hend (by simp) (by simp))
  cases hr with
  | normal => exact couples_pure .nil
  | returned hvw => exact couples_pure hvw

end

/-! ## Calls -/

theorem Couples.raised {Q : Value → Value → Prop} {x y : Eval Value}
    (h : C.Couples d C.Located Q x y) : C.Couples d C.Raised Q x y := by
  intro m n hp
  have h := h hp
  generalize x m = r at h ⊢
  generalize y n = r' at h ⊢
  cases h with
  | ok hQ h => exact .ok hQ h
  | error hE h => exact .error (.located hE) h
  | stopped hs h => exact .stopped hs h

theorem couples_native (nat : Native) {as bs : List Value}
    (hargs : as.Forall₂ (Value.Alike C.toPlacement) bs) (id : Nat) :
    C.Couples d C.Raised (Value.Alike C.toPlacement) (host.apply (.native id nat) as)
      (host.apply (.native id nat) bs) := by
  intro m n hp
  simp only [Host.apply]
  rw [nat.apply_alike host.clock hargs]
  cases h : nat.apply host.clock as with
  | ok v => exact .ok (Value.alike_of_type (Native.type_apply h)) hp.refl
  | error c =>
    obtain ⟨fault, rfl⟩ := Native.isTypeError_apply h
    exact .error (.bare trivial) hp.refl

theorem call_of_arity {f g : Function} {as bs : List Value} (hfg : f.Alike C.toPlacement g)
    (hargs : as.Forall₂ (Value.Alike C.toPlacement) bs) (h : as.length ≠ f.arity)
    (hp : C.Pairs d m n) :
    C.Ends d C.Raised (Value.Alike C.toPlacement) m n (host.call f as m) (host.call g bs n) := by
  rw [host.call_eq, host.call_eq, hfg.arity_eq, ← hargs.length_eq, if_pos h, if_pos h]
  exact .error (.bare trivial) hp.refl

/-- A call where the first run can make no more. -/
theorem couplesCalls_of_limit (host : Host) (hd : C.left.maxCallDepth ≤ d) :
    C.CouplesCalls host d := by
  intro f g as bs hfg hargs m n hp
  by_cases harity : as.length ≠ f.arity
  · exact call_of_arity hfg hargs harity hp
  have harity' : ¬bs.length ≠ g.arity := by rwa [← hargs.length_eq, hfg.arity_eq]
  have hm : host.call f as m = .error ⟨.stackOverflow C.left.maxCallDepth, none⟩ m := by
    rw [host.call_eq, hp.left, hp.depth_left, if_neg harity, if_pos hd]
  rw [hm]
  rcases C.limit with hlimit | hstops
  · have hn : host.call g bs n = .error ⟨.stackOverflow C.left.maxCallDepth, none⟩ n := by
      rw [host.call_eq, hp.right, hp.depth_right, ← hlimit, if_neg harity', if_pos hd]
    rw [hn]
    exact .error (.bare trivial) hp.refl
  · -- the second run goes on with the call
    obtain ⟨lines, hlines⟩ := host.appends_call g bs n
    exact .stopped hstops ⟨#[], lines, by simp, by rw [machineLeft_eq, hlines, Array.append_empty]⟩

/-- Calls end in correspondence, by induction on the number of calls that the first run may
still make. -/
theorem couplesCalls (host : Host) : ∀ k d, C.left.maxCallDepth - d = k → C.CouplesCalls host d
  | 0, d, hd => couplesCalls_of_limit host (Nat.sub_eq_zero_iff_le.1 hd)
  | k + 1, d, hd => by
    have ih := couplesCalls host k (d + 1) (by omega)
    have hlt : ¬C.left.maxCallDepth ≤ d := by omega
    have hlt' : ¬C.right.maxCallDepth ≤ d := fun h => hlt (C.limit_le.trans h)
    intro f g as bs hfg hargs m n hp
    by_cases harity : as.length ≠ f.arity
    · exact call_of_arity hfg hargs harity hp
    have harity' : ¬bs.length ≠ g.arity := by rwa [← hargs.length_eq, hfg.arity_eq]
    have hm : host.call f as m = Eval.inCall (host.apply f as) m := by
      rw [host.call_eq, hp.left, hp.depth_left, if_neg harity, if_neg hlt]
    have hn : host.call g bs n = Eval.inCall (host.apply g bs) n := by
      rw [host.call_eq, hp.right, hp.depth_right, if_neg harity', if_neg hlt']
    rw [hm, hn]
    cases hfg with
    | closure hd => exact couples_inCall (couples_invoke ih hd _ hargs).raised hp
    | native => exact couples_inCall (couples_native _ hargs _) hp

/-! ## Runs of programs -/

/-- How two runs of programs end : both with values, both with errors, or the first one with an
error that stops it, and the second one has printed the lines of the first one and more. -/
inductive Results (C : Coupling) : Run → Run → Prop
  | ok {v w : Option Value} {s t : Store} {lines : Array String} :
    Option.Rel (Value.Alike C.toPlacement) v w → C.rel s t →
    Results C ⟨.ok v, s, lines⟩ ⟨.ok w, t, lines⟩
  | error {e e' : Error} {s t : Store} {lines : Array String} : C.Located e e' → C.rel s t →
    Results C ⟨.error e, s, lines⟩ ⟨.error e', t, lines⟩
  | stopped {e : Error} {s : Store} {lines more : Array String} {run : Run} : C.stops e.cause →
    run.printed = lines ++ more → Results C ⟨.error e, s, lines⟩ run

theorem CompletionsAlike.value? {a b : Completion} (h : C.CompletionsAlike a b) :
    Option.Rel (Value.Alike C.toPlacement) a.value? b.value? := by
  cases h with
  | normal => exact .none
  | returned hvw => exact .some hvw

theorem Steps.printed_eq {m n m' n' : Machine} (h : C.Steps d m n m' n')
    (hprinted : n.printed = m.printed) : n'.printed = m'.printed := by
  obtain ⟨lines, hm, hn⟩ := h.prints
  rw [hn, hm, hprinted]

/-- Programs that are alike run in lockstep in corresponding stores. -/
theorem results_execute {p q : Program} (h : Stmt.AlikeAll C.toPlacement p.body q.body)
    {s t : Store} (hrel : C.rel s t) (host : Host) (i : ScopeId) (printed : Array String) :
    C.Results (p.execute host C.left s i printed) (q.execute host C.right t i printed) := by
  have hends := couples_execAll (couplesCalls host _ 0 rfl) h (m := ⟨s, i, C.left, 0, printed⟩)
    (n := ⟨t, i, C.right, 0, printed⟩) ⟨hrel, rfl, rfl, rfl, rfl, rfl⟩
  simp only [Program.execute, Run.of, Host.execAll_eq, Functor.map, EStateM.map]
  generalize Stmt.execAll host.call p.body ⟨s, i, C.left, 0, printed⟩ = r at hends ⊢
  generalize Stmt.execAll host.call q.body ⟨t, i, C.right, 0, printed⟩ = r' at hends ⊢
  cases hends with
  | ok hvalues hsteps =>
    simp only [hsteps.printed_eq rfl]
    exact .ok hvalues.value? hsteps.pairs.rel
  | error herrors hsteps =>
    simp only [hsteps.printed_eq rfl]
    exact .error herrors hsteps.pairs.rel
  | stopped hstops hprints =>
    obtain ⟨lines, more, hm, hn⟩ := hprints
    rw [← hm] at hn
    cases r' <;> exact .stopped hstops hn

end Coupling

/-! ## Runs in one store -/

/-- The same places, with the causes that may arise at each of them. -/
def Placement.same (raises : Cause → Span → Prop) : Placement where
  spans s t := t = s
  refl _ := rfl
  arises c s t := t = s ∧ raises c s

theorem Value.eq_of_alike_same {raises : Cause → Span → Prop} {v w : Value}
    (h : v.Alike (.same raises) w) : w = v :=
  Value.eq_of_alike (fun _ _ hs => hs) h

/-- Every value of the store is allowed to raise what it can raise. -/
def Store.Allowed (raises : Cause → Span → Prop) (s : Store) : Prop :=
  ∀ i x v, s.value? i x = some v → v.Alike (.same raises) v

theorem Store.Allowed.bind {raises : Cause → Span → Prop} {s : Store} (h : s.Allowed raises)
    {v : Value} (hv : v.Alike (.same raises) v) (i : ScopeId) (x : String) :
    (s.bind i x v).Allowed raises := by
  intro j y u hu
  rw [Store.value?_bind] at hu
  split at hu
  · cases hu
    exact hv
  · exact h j y u hu

theorem Store.Allowed.get? {raises : Cause → Span → Prop} {s : Store} (h : s.Allowed raises)
    (i : ScopeId) (x : String) :
    Option.Rel (Value.Alike (.same raises)) (s.get? i x) (s.get? i x) := by
  cases hv : s.get? i x with
  | none => exact .none
  | some v =>
    rw [Store.get?_eq] at hv
    obtain ⟨j, -, hv⟩ := Option.bind_eq_some_iff.1 hv
    exact .some (h j x v hv)

theorem Store.allowed_of_sites {raises : Cause → Span → Prop} {s : Store}
    (h : ∀ i x n d k, s.value? i x = some (.function (.closure n d k)) →
      Site.Allowed (.same raises) (d.sites [])) : s.Allowed raises := by
  intro i x v hv
  cases v with
  | nil | bool | number | string => exact Value.alike_of_type (by simp [Value.type])
  | function f =>
    cases f with
    | native => exact .function .native
    | closure n d k => exact .function (.closure (d.alike_self (h i x n d k hv)))

/-- Everything is allowed if every cause may arise everywhere. -/
theorem Site.allowed_everywhere (sites : List Site) : Site.Allowed (.same fun _ _ => True) sites :=
  fun _ _ _ _ _ => ⟨rfl, trivial⟩

theorem Store.allowed_everywhere (s : Store) : s.Allowed fun _ _ => True :=
  Store.allowed_of_sites fun _ _ _ d _ _ => Site.allowed_everywhere (d.sites [])

theorem Program.alike_self_everywhere (p : Program) :
    Stmt.AlikeAll (.same fun _ _ => True) p.body p.body :=
  Stmt.alikeAll_self p.body (Site.allowed_everywhere p.sites)

theorem Value.eq_of_rel_same {raises : Cause → Span → Prop} {v w : Option Value}
    (h : Option.Rel (Value.Alike (.same raises)) v w) : w = v := by
  cases h with
  | none => rfl
  | some hvw => rw [Value.eq_of_alike_same hvw]

/-- Two runs of one program in one store, that differ in the number of calls which may become
active, if the first one may be stopped by that. -/
def Coupling.same (raises : Cause → Span → Prop) (left right : Config) (stops : Cause → Prop)
    (hle : left.maxCallDepth ≤ right.maxCallDepth)
    (hlimit : left.maxCallDepth = right.maxCallDepth ∨ stops (.stackOverflow left.maxCallDepth)) :
    Coupling where
  toPlacement := .same raises
  left := left
  right := right
  stops := stops
  rel s t := t = s ∧ s.Allowed raises
  limit_le := hle
  limit := hlimit
  get? := by
    rintro s _ ⟨rfl, hs⟩ i x
    exact hs.get? i x
  resolve? := by
    rintro s _ ⟨rfl, -⟩ i x
    rfl
  bind := by
    rintro s _ v w ⟨rfl, hs⟩ hvw i x
    obtain rfl := Value.eq_of_alike_same hvw
    exact ⟨rfl, hs.bind hvw i x⟩
  refuses_of := by
    rintro s _ i x ⟨rfl, -⟩ h
    exact h
  refuses := by
    rintro s _ i x ⟨rfl, -⟩ h
    exact .inl h
  refusing := True
  refusing_of _ _ := trivial
  nextIdentity := by
    rintro s _ ⟨rfl, -⟩
    rfl
  takeIdentity := by
    rintro s _ ⟨rfl, hs⟩
    exact ⟨rfl, hs⟩
  nextScope := by
    rintro s _ ⟨rfl, -⟩
    rfl
  openInside := by
    rintro s _ ⟨rfl, hs⟩ i k
    refine ⟨rfl, fun j x v hv => hs j x v ?_⟩
    rwa [Store.value?_openInside] at hv

end Scoped
