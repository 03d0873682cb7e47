import Scoped.Proofs.Concatenation
import Scoped.Proofs.Contracts
import Scoped.Proofs.Operations

/-!
# The parameters of calls

The check lets a program pass only if the parameters of every function in it have different
names. Values are made of the functions of programs that were run, so every closure that an
interpreter ever meets has such parameters, and so have the functions in its body. That is a
contract of tasks : `Contract.kept_regular`.

Parameters with different names can be declared one after the other in a new scope, also where
redeclarations are refused (`FunctionDef.start_of_nodup`). So a call that is not refused starts
its body, in a scope that binds the parameters to the arguments and nothing else :
`Interpreter.session_binds_parameters`.
-/

namespace Scoped

variable {α β : Type} {host : Host} {m m' : Machine} {s : Store} {v : Value}

/-! ## Functions whose parameters have different names -/

/-- The parameters of the function have different names, and so have those of the functions in its
body. -/
structure FunctionDef.Regular (d : FunctionDef) : Prop where
  params : (d.params.map Ident.name).Nodup
  body : ∃ frames, ∀ s ∈ Stmt.sitesAll frames d.body, s.Distinct

/-- If the value is a closure, its function is regular. -/
def Value.Regular (v : Value) : Prop := ∀ n d k, v = .function (.closure n d k) → d.Regular

/-- All values that scopes bind are regular. -/
def Store.Regular (s : Store) : Prop := ∀ i x v, s.value? i x = some v → v.Regular

theorem FunctionDef.regular_of_sites {d : FunctionDef} {frames : List Frame}
    (hd : (d.params.map Ident.name).Nodup) (h : ∀ s ∈ d.sites frames, s.Distinct) : d.Regular := by
  refine ⟨hd, .body :: frames, fun s hs => h s ?_⟩
  cases d with
  | mk => exact List.mem_append_right _ hs

theorem Value.regular_of_type (h : v.type ≠ .function) : v.Regular := by
  rintro n d k rfl
  exact absurd rfl h

theorem Value.regular_closure {d : FunctionDef} (hd : d.Regular) (n : Nat) (k : ScopeId) :
    Value.Regular (.function (.closure n d k)) := by
  rintro n' d' k' ⟨⟩
  exact hd

namespace Store.Regular

theorem bind (h : s.Regular) (hv : v.Regular) (i : ScopeId) (x : String) :
    (s.bind i x v).Regular := by
  intro j y u hu
  rw [value?_bind] at hu
  split at hu
  · cases hu
    exact hv
  · exact h j y u hu

theorem openInside (h : s.Regular) (i : ScopeId) (k : ScopeKind) : (s.openInside i k).Regular :=
  fun j x v hv => h j x v (by simpa using hv)

theorem takeIdentity (h : s.Regular) : s.takeIdentity.Regular := h

theorem register (h : s.Regular) (i : ScopeId) : (s.register i).Regular := by
  unfold Store.register
  generalize Native.all = ns
  induction ns generalizing s with
  | nil => exact h
  | cons f ns ih => exact ih (h.takeIdentity.bind (by rintro n d k ⟨⟩) i f.name)

theorem empty : Store.empty.Regular := fun i x v hv => by
  simp [Store.value?, Store.record?, Store.empty] at hv

theorem openRoot (h : s.Regular) (p : Redeclaration) : (s.openRoot p).Regular :=
  fun j x v hv => h j x v (by simpa using hv)

end Store.Regular

/-! ## The contract -/

namespace Task

/-- The places of the syntax that a task evaluates. -/
@[simp]
def sites (frames : List Frame) : {α : Type} → Task α → List Site
  | _, .expr e => e.sites frames
  | _, .exprs es => Expr.sitesAll frames es
  | _, .stmt s => s.sites frames
  | _, .stmts ss => Stmt.sitesAll frames ss
  | _, .call _ _ => []

/-- The values that a task ends with. -/
def outputs : {α : Type} → Task α → α → List Value
  | _, .expr _, v | _, .call _ _, v => [v]
  | _, .exprs _, vs => vs
  | _, .stmt _, c | _, .stmts _, c => c.value?.toList

/-- The functions in the syntax that a task evaluates are regular, and so are its inputs. -/
structure Regular (t : Task α) : Prop where
  sites : ∃ frames, ∀ s ∈ t.sites frames, s.Distinct
  inputs : ∀ v ∈ t.inputs, v.Regular

end Task

/-- The store and the values that a task ends with are regular. -/
def Ending.Regular (outputs : α → List Value) : Ending α → Prop
  | .ok a m => m.store.Regular ∧ ∀ v ∈ outputs a, v.Regular
  | .error _ m => m.store.Regular

/-- Regular stores and values lead to regular stores and values. -/
def Contract.regular : Contract where
  pre t m := m.store.Regular ∧ t.Regular
  post t _ r := r.Regular t.outputs

namespace Contract

open Plan (upholds_after)

theorem pre_regular {t : Task α} {frames : List Frame} (hm : m.store.Regular)
    (hin : t.inputs = []) (h : ∀ s ∈ t.sites frames, s.Distinct) : Contract.regular.pre t m :=
  ⟨hm, ⟨frames, h⟩, by rw [hin]; simp⟩

theorem regular_ofExcept {r : Except Cause Value} (hm : m.store.Regular) (span : Span)
    (h : ∀ v, r = .ok v → v.type ≠ .function) :
    Ending.Regular (fun v => [v]) (Eval.ofExcept span r m) := by
  cases r with
  | ok v => exact ⟨hm, List.forall_mem_singleton.2 (Value.regular_of_type (h v rfl))⟩
  | error c => exact hm

theorem regular_declare (hm : m.store.Regular) (hv : v.Regular) (id : Ident) :
    Ending.Regular (fun c : Completion => c.value?.toList)
      ((do Eval.declare id v; pure .normal : Eval Completion) m) := by
  by_cases hrefuses : m.store.refuses m.scope id.name = true
  · rw [Eval.bind_error (x := Eval.declare id v) (if_pos hrefuses)]
    exact hm
  · rw [Eval.bind_ok (x := Eval.declare id v) (if_neg hrefuses)]
    exact ⟨hm.bind hv _ _, by simp [Completion.value?]⟩

theorem regular_declareAll {i : ScopeId} {ids : List Ident} {args : List Value}
    (hm : m.store.Regular) (hargs : ∀ v ∈ args, v.Regular) :
    Ending.Regular (fun _ => []) (Eval.declareAll i ids args m) := by
  induction ids generalizing args m with
  | nil => exact ⟨hm, by simp⟩
  | cons id ids ih =>
    cases args with
    | nil => exact ⟨hm, by simp⟩
    | cons v args =>
      obtain ⟨hv, hargs⟩ := List.forall_mem_cons.1 hargs
      rw [Eval.declareAll]
      by_cases hrefuses : m.store.refuses i id.name = true
      · rw [Eval.bind_error (x := Eval.declareIn i id v) (if_pos hrefuses)]
        exact hm
      · rw [Eval.bind_ok (x := Eval.declareIn i id v) (if_neg hrefuses)]
        exact ih (hm.bind hv _ _) hargs

theorem upholds_expr {e : Expr} {frames : List Frame} (hm : m.store.Regular)
    (h : ∀ s ∈ e.sites frames, s.Distinct) :
    (e.plan m).Upholds .regular (Ending.Regular (Task.expr e).outputs) := by
  cases e with
  | literal _ l =>
    exact ⟨hm, List.forall_mem_singleton.2 (Value.regular_of_type (Value.type_ofLiteral l))⟩
  | ident id =>
    intro j _
    dsimp only
    split
    · next v hv =>
      obtain ⟨j, -, hv⟩ := Option.bind_eq_some_iff.1 hv
      exact ⟨hm, List.forall_mem_singleton.2 (hm j id.name v hv)⟩
    · exact hm
  | assign span target e =>
    simp only [Expr.sites, List.forall_mem_cons] at h
    refine upholds_after (pre_regular hm rfl h.2) (fun v m₁ h₁ j _ => ?_) fun _ _ h₁ => h₁
    cases j with
    | some j => exact ⟨h₁.1.bind (h₁.2 v (by simp [Task.outputs])) _ _, h₁.2⟩
    | none => exact h₁.1
  | unary span op e =>
    simp only [Expr.sites, List.forall_mem_cons] at h
    exact upholds_after (pre_regular hm rfl h.2)
      (fun v m₁ h₁ => regular_ofExcept h₁.1 span fun _ => UnaryOp.type_apply) fun _ _ h₁ => h₁
  | binary span op l r =>
    simp only [Expr.sites, List.forall_mem_cons, List.forall_mem_append] at h
    refine upholds_after (pre_regular hm rfl h.2.1) (fun a m₁ h₁ => ?_) fun _ _ h₁ => h₁
    exact upholds_after (pre_regular h₁.1 rfl h.2.2)
      (fun b m₂ h₂ => regular_ofExcept h₂.1 span fun _ => BinaryOp.type_apply) fun _ _ h₂ => h₂
  | logical span op l r =>
    simp only [Expr.sites, List.forall_mem_cons, List.forall_mem_append] at h
    refine upholds_after (pre_regular hm rfl h.2.1) (fun a m₁ h₁ => ?_) fun _ _ h₁ => h₁
    split
    · exact h₁
    · exact ⟨pre_regular h₁.1 rfl h.2.2, fun _ hr => hr⟩
  | call span f args =>
    simp only [Expr.sites, List.forall_mem_cons, List.forall_mem_append] at h
    refine upholds_after (pre_regular hm rfl h.2.1) (fun v m₁ h₁ => ?_) fun _ _ h₁ => h₁
    cases v with
    | nil | bool | number | string => exact h₁.1
    | function f =>
      refine upholds_after (pre_regular h₁.1 rfl h.2.2) (fun vs m₂ h₂ => ?_) fun _ _ h₂ => h₂
      have hf : Value.Regular (.function f) := h₁.2 _ (by simp [Task.outputs])
      refine ⟨⟨h₂.1, ⟨[], by simp⟩, List.forall_mem_cons.2 ⟨hf, h₂.2⟩⟩, fun r hr => ?_⟩
      cases r <;> exact hr
  | function d =>
    simp only [Expr.sites, List.forall_mem_cons] at h
    have hd : d.Regular := FunctionDef.regular_of_sites (h.1 d rfl) h.2
    exact ⟨hm.takeIdentity, List.forall_mem_singleton.2 (Value.regular_closure hd _ _)⟩

theorem upholds_exprs {es : List Expr} {frames : List Frame} (hm : m.store.Regular)
    (h : ∀ s ∈ Expr.sitesAll frames es, s.Distinct) :
    (Expr.planAll es m).Upholds .regular (Ending.Regular (Task.exprs es).outputs) := by
  cases es with
  | nil => exact ⟨hm, by simp [Task.outputs]⟩
  | cons e es =>
    simp only [Expr.sitesAll, List.forall_mem_append] at h
    refine upholds_after (pre_regular hm rfl h.1) (fun v m₁ h₁ => ?_) fun _ _ h₁ => h₁
    refine upholds_after (pre_regular h₁.1 rfl h.2) (fun vs m₂ h₂ => ?_) fun _ _ h₂ => h₂
    exact ⟨h₂.1, List.forall_mem_cons.2 ⟨h₁.2 v (by simp [Task.outputs]), h₂.2⟩⟩

theorem upholds_stmt {s : Stmt} {frames : List Frame} (hm : m.store.Regular)
    (h : ∀ s' ∈ s.sites frames, s'.Distinct) :
    (s.plan m).Upholds .regular (Ending.Regular (Task.stmt s).outputs) := by
  cases s with
  | expr _ e =>
    simp only [Stmt.sites, List.forall_mem_cons] at h
    exact upholds_after (pre_regular hm rfl h.2)
      (fun v m₁ h₁ => ⟨h₁.1, by simp [Task.outputs, Completion.value?]⟩) fun _ _ h₁ => h₁
  | print _ e =>
    simp only [Stmt.sites, List.forall_mem_cons] at h
    exact upholds_after (pre_regular hm rfl h.2)
      (fun v m₁ h₁ => ⟨h₁.1, by simp [Task.outputs, Completion.value?]⟩) fun _ _ h₁ => h₁
  | ret _ e =>
    cases e with
    | none => exact ⟨hm, List.forall_mem_singleton.2 (Value.regular_of_type (by simp [Value.type]))⟩
    | some e =>
      simp only [Stmt.sites, List.forall_mem_cons] at h
      exact upholds_after (pre_regular hm rfl h.2) (fun v m₁ h₁ => h₁) fun _ _ h₁ => h₁
  | block _ body =>
    simp only [Stmt.sites, List.forall_mem_cons] at h
    refine ⟨pre_regular (hm.openInside _ _) rfl h.2, fun r hr => ?_⟩
    cases r <;> exact hr
  | bind _ id e =>
    cases e with
    | none => exact regular_declare hm (Value.regular_of_type (by simp [Value.type])) id
    | some e =>
      simp only [Stmt.sites, List.forall_mem_cons] at h
      exact upholds_after (pre_regular hm rfl h.2)
        (fun v m₁ h₁ => regular_declare h₁.1 (h₁.2 v (by simp [Task.outputs])) id)
        fun _ _ h₁ => h₁
  | function d =>
    simp only [Stmt.sites, List.forall_mem_cons] at h
    have hd : d.Regular := FunctionDef.regular_of_sites (h.1 d rfl) h.2
    simp only [Stmt.plan]
    split
    · next id _ =>
      have hf := Value.regular_closure hd m.store.nextIdentity m.scope
      exact regular_declare (m := { m with store := m.store.takeIdentity }) hm.takeIdentity hf id
    · exact ⟨hm.takeIdentity, by simp [Task.outputs, Completion.value?]⟩
  | cond _ test a b =>
    cases b with
    | none =>
      simp only [Stmt.sites, List.forall_mem_cons, List.forall_mem_append] at h
      refine upholds_after (pre_regular hm rfl h.2.1) (fun v m₁ h₁ => ?_) fun _ _ h₁ => h₁
      split
      · exact ⟨pre_regular h₁.1 rfl h.2.2, fun _ hr => hr⟩
      · exact ⟨h₁.1, by simp [Task.outputs, Completion.value?]⟩
    | some b =>
      simp only [Stmt.sites, List.forall_mem_cons, List.forall_mem_append] at h
      refine upholds_after (pre_regular hm rfl h.2.1) (fun v m₁ h₁ => ?_) fun _ _ h₁ => h₁
      split
      · exact ⟨pre_regular h₁.1 rfl h.2.2.1, fun _ hr => hr⟩
      · exact ⟨pre_regular h₁.1 rfl h.2.2.2, fun _ hr => hr⟩

theorem upholds_stmts {ss : List Stmt} {frames : List Frame} (hm : m.store.Regular)
    (h : ∀ s ∈ Stmt.sitesAll frames ss, s.Distinct) :
    (Stmt.planAll ss m).Upholds .regular (Ending.Regular (Task.stmts ss).outputs) := by
  cases ss with
  | nil => exact ⟨hm, by simp [Task.outputs, Completion.value?]⟩
  | cons s ss =>
    simp only [Stmt.sitesAll, List.forall_mem_append] at h
    refine upholds_after (pre_regular hm rfl h.1) (fun c m₁ h₁ => ?_) fun _ _ h₁ => h₁
    cases c with
    | normal => exact ⟨pre_regular h₁.1 rfl h.2, fun _ hr => hr⟩
    | returned v => exact h₁

theorem upholds_call {f : Function} {args : List Value} (hm : m.store.Regular)
    (hf : Value.Regular (.function f)) (hargs : ∀ v ∈ args, v.Regular) :
    (host.planCall f args m).Upholds .regular (Ending.Regular (Task.call f args).outputs) := by
  rw [Host.planCall.eq_def]
  split
  · exact hm
  split
  · exact hm
  cases f with
  | native _ n =>
    dsimp only
    split
    · next v hv =>
      exact ⟨hm, List.forall_mem_singleton.2 (Value.regular_of_type (Native.type_apply hv))⟩
    · exact hm
  | closure n d k =>
    obtain ⟨frames, hbody⟩ := (hf n d k rfl).body
    have hstart : Ending.Regular (fun _ => []) (d.start k args m.deeper) :=
      regular_declareAll (m := m.deeper.opened k (.call d.name?)) (hm.openInside _ _) hargs
    dsimp only
    split
    · next m₁ hs =>
      rw [hs] at hstart
      refine ⟨pre_regular hstart.1 rfl hbody, fun r hr => ?_⟩
      cases r with
      | error e m₂ => exact hr
      | ok c m₂ =>
        -- a body that does not return gives `nil`
        cases c with
        | normal =>
          exact ⟨hr.1, List.forall_mem_singleton.2 (Value.regular_of_type (by simp [Value.type]))⟩
        | returned v => exact hr
    · next e m₁ hs =>
      rw [hs] at hstart
      exact hstart

theorem kept_regular (host : Host) : Contract.regular.Kept host := by
  rintro α t m ⟨hm, ⟨frames, hsites⟩, hinputs⟩
  cases t with
  | expr e => exact upholds_expr hm hsites
  | exprs es => exact upholds_exprs hm hsites
  | stmt s => exact upholds_stmt hm hsites
  | stmts ss => exact upholds_stmts hm hsites
  | call f args =>
    obtain ⟨hf, hargs⟩ := List.forall_mem_cons.1 hinputs
    exact upholds_call hm hf hargs

end Contract

/-! ## Starting a body -/

namespace Store

/-- Binds names to values in a scope, in order. -/
def bindAll (s : Store) (i : ScopeId) : List Ident → List Value → Store
  | id :: ids, v :: vs => (s.bind i id.name v).bindAll i ids vs
  | _, _ => s

/-- One scope was opened inside a scope, which binds parameters to arguments and nothing else. The
other scopes are as they were. -/
structure AddsFrame (s : Store) (captured : ScopeId) (params : List Ident) (args : List Value)
    (t : Store) : Prop where
  size_eq : t.scopes.size = s.scopes.size + 1
  outer_eq : t.outer? s.nextScope = some captured
  binds_iff : ∀ x v, t.value? s.nextScope x = some v ↔ (x, v) ∈ (params.map Ident.name).zip args
  others : ∀ j ≠ s.nextScope, t.outer? j = s.outer? j ∧ ∀ x, t.value? j x = s.value? j x

variable {i : ScopeId} {ids : List Ident} {args : List Value}

theorem size_bindAll (s : Store) (i : ScopeId) (ids : List Ident) (args : List Value) :
    (s.bindAll i ids args).scopes.size = s.scopes.size := by
  fun_induction bindAll s i ids args with
  | case1 s id ids v vs ih => rw [ih, size_bind]
  | case2 => rfl

theorem outer?_bindAll (s : Store) (i : ScopeId) (ids : List Ident) (args : List Value)
    (j : ScopeId) : (s.bindAll i ids args).outer? j = s.outer? j := by
  fun_induction bindAll s i ids args with
  | case1 s id ids v vs ih => rw [ih, outer?_bind]
  | case2 => rfl

theorem value?_bindAll_of_ne (s : Store) {j : ScopeId} (hj : i ≠ j) (ids : List Ident)
    (args : List Value) (x : String) : (s.bindAll i ids args).value? j x = s.value? j x := by
  fun_induction bindAll s i ids args with
  | case1 s id ids v vs ih => rw [ih, value?_bind, if_neg fun h => hj h.1]
  | case2 => rfl

/-- In a scope that does not bind them yet, different names keep the values they get. -/
theorem value?_bindAll_iff (hids : (ids.map Ident.name).Nodup) (hi : i < s.scopes.size)
    (hfree : ∀ id ∈ ids, s.value? i id.name = none) (x : String) (v : Value) :
    (s.bindAll i ids args).value? i x = some v ↔
      (x, v) ∈ (ids.map Ident.name).zip args ∨ s.value? i x = some v := by
  induction ids generalizing s args with
  | nil => simp [bindAll]
  | cons id ids ih =>
    cases args with
    | nil => simp [bindAll]
    | cons u args =>
      obtain ⟨hid, hids⟩ := List.nodup_cons.1 hids
      obtain ⟨hfreeId, hfree⟩ := List.forall_mem_cons.1 hfree
      have hfree' : ∀ id' ∈ ids, (s.bind i id.name u).value? i id'.name = none := by
        intro id' hid'
        have hne : id.name ≠ id'.name := fun h => hid (h ▸ List.mem_map_of_mem hid')
        rw [value?_bind, if_neg fun h => hne h.2.1]
        exact hfree id' hid'
      rw [bindAll, ih hids (by simpa using hi) hfree', value?_bind, List.map_cons,
        List.zip_cons_cons, List.mem_cons, Prod.mk.injEq]
      by_cases hx : id.name = x
      · subst hx
        simp [hi, hfreeId, or_comm, eq_comm]
      · simp [hx, Ne.symm hx]

end Store

theorem Eval.declareAll_eq {i : ScopeId} {ids : List Ident} {args : List Value}
    (hids : (ids.map Ident.name).Nodup) (hfree : ∀ id ∈ ids, m.store.value? i id.name = none) :
    Eval.declareAll i ids args m = .ok () { m with store := m.store.bindAll i ids args } := by
  induction ids generalizing args m with
  | nil => rfl
  | cons id ids ih =>
    cases args with
    | nil => rfl
    | cons v args =>
      obtain ⟨hid, hids⟩ := List.nodup_cons.1 hids
      obtain ⟨hfreeId, hfree⟩ := List.forall_mem_cons.1 hfree
      have hrefuses : m.store.refuses i id.name = false := by
        simp [Store.refuses, Store.binds_eq, hfreeId]
      rw [Eval.declareAll, Eval.bind_ok (x := Eval.declareIn i id v) (if_neg (by simp [hrefuses]))]
      refine ih hids fun id' hid' => ?_
      have hne : id.name ≠ id'.name := fun h => hid (h ▸ List.mem_map_of_mem hid')
      rw [Store.value?_bind, if_neg fun h => hne h.2.1]
      exact hfree id' hid'

/-- The parameters of a function with different names are bound, whatever the policy. -/
theorem FunctionDef.start_of_nodup {d : FunctionDef} (hd : (d.params.map Ident.name).Nodup)
    (k : ScopeId) (args : List Value) (m : Machine) :
    ∃ t, d.start k args m = .ok () { m with store := t } ∧
      m.store.AddsFrame k d.params args t := by
  have hfree : ∀ x, (m.store.openInside k (.call d.name?)).value? m.store.nextScope x = none := by
    intro x
    have hnone : m.store.record? m.store.nextScope = none :=
      Store.record?_eq_none_iff.2 (Nat.le_refl _)
    rw [Store.value?_openInside, Store.value?, hnone]
    rfl
  refine ⟨_, Eval.declareAll_eq (m := m.opened k (.call d.name?)) hd fun id _ => hfree id.name,
    ?_, ?_, fun x v => ?_, fun j hj => ⟨?_, fun x => ?_⟩⟩
  · rw [Store.size_bindAll, Machine.size_opened]
  · rw [Store.outer?_bindAll]
    exact (Store.outer?_openInside ..).trans (if_pos rfl)
  · exact (Store.value?_bindAll_iff hd (by simp [Store.nextScope]) (fun id _ => hfree id.name) x
      v).trans (or_iff_left (by simp [hfree]))
  · rw [Store.outer?_bindAll]
    exact (Store.outer?_openInside ..).trans (if_neg hj)
  · rw [Store.value?_bindAll_of_ne _ hj.symm]
    exact Store.value?_openInside ..

/-- A call that is not refused asks for the body, in the scope for the parameters. -/
theorem Host.planCall_of_start {n : Nat} {d : FunctionDef} {k : ScopeId} {args : List Value}
    {t : Store} (harity : args.length = d.arity) (hdepth : m.depth < m.config.maxCallDepth)
    (hstart : d.start k args m.deeper = .ok () { m.deeper with store := t }) :
    host.planCall (.closure n d k) args m =
      .ask (.stmts d.body) ⟨t, m.store.nextScope, m.config, m.depth + 1, m.printed⟩
        fun r => .done (r.leaving m.scope).ofBody.fromCall := by
  have harity' : ¬args.length ≠ (Function.closure n d k).arity := not_not.2 harity
  rw [Host.planCall, if_neg harity', if_neg (Nat.not_le.2 hdepth)]
  simp only [hstart]
  rfl

/-! ## Sessions -/

theorem Program.distinct_of_check {p : Program} (h : p.check = .ok ()) :
    ∀ s ∈ p.sites, s.Distinct :=
  (p.clean_iff.1 (p.check_eq_ok_iff.1 h)).1

/-- A program that passes the check leaves a regular store, and returns a regular value. -/
theorem Program.regular_execute {p : Program} (hp : p.check = .ok ()) (host : Host)
    (config : Config) (hs : s.WellFormed) (hregular : s.Regular) {i : ScopeId}
    (hi : i < s.scopes.size) (printed : Array String) :
    (p.execute host config s i printed).store.Regular ∧
      ∀ v, (p.execute host config s i printed).result = .ok (some v) → v.Regular := by
  have hpre : Contract.regular.pre (Task.stmts p.body) ⟨s, i, config, 0, printed⟩ :=
    Contract.pre_regular hregular rfl (Program.distinct_of_check hp)
  have hpost := (Contract.kept_regular host).run hpre ⟨hs, hi, by simp⟩
  rw [Program.execute_eq]
  cases hr : (Task.stmts p.body).run host ⟨s, i, config, 0, printed⟩ with
  | ok c m =>
    rw [hr] at hpost
    exact ⟨hpost.1, fun v hv => hpost.2 v (Option.mem_toList.2 (Except.ok.inj hv))⟩
  | error e m =>
    rw [hr] at hpost
    exact ⟨hpost, fun v hv => by cases hv⟩

namespace Interpreter

/-- What sessions keep : a lawful and regular store, and a scope for the globals. -/
structure Sound (i : Interpreter) : Prop where
  lawful : i.store.Lawful
  globals_lt : i.globals < i.store.scopes.size
  regular : i.store.Regular

theorem sound_new (config : Config) : (Interpreter.new config).Sound where
  lawful := (becomes_new config).lawful .empty
  globals_lt := by simp [Interpreter.new, Store.nextScope]
  regular := ((Store.Regular.empty.openRoot _).register _).openInside _ _

/-- A run keeps an interpreter sound, and returns a regular value. -/
theorem Sound.runScript {i : Interpreter} (h : i.Sound) (clock : Int64) (script : String)
    (printed : Array String) : (i.after (i.runScript clock script printed)).Sound ∧
      ∀ v, (i.runScript clock script printed).result = .ok (some v) → v.Regular := by
  unfold Interpreter.runScript
  split
  · next p _ =>
    split
    · next hcheck =>
      have hregular := Program.regular_execute hcheck ⟨clock⟩ i.config h.lawful.toWellFormed
        h.regular h.globals_lt printed
      have hgrows := (p.declares_execute ⟨clock⟩ i.config i.store i.globals printed).1
      exact ⟨⟨(p.lawful_execute ⟨clock⟩ i.config h.lawful h.globals_lt printed).1,
        h.globals_lt.trans_le hgrows.size_le, hregular.1⟩, hregular.2⟩
    · exact ⟨h, fun v hv => by cases hv⟩
  · exact ⟨h, fun v hv => by cases hv⟩

theorem Session.sound {i j : Interpreter} (h : i.Session j) (hi : i.Sound) : j.Sound := by
  induction h with
  | start => exact hi
  | run clock script printed _ ih => exact (ih.runScript clock script printed).1

end Interpreter

/-! ## The main result -/

/-- If the value is a closure, its parameters have different names. -/
def Value.DistinctParams (v : Value) : Prop :=
  ∀ n d k, v = .function (.closure n d k) → (d.params.map Ident.name).Nodup

/-- The closures that scopes bind have parameters with different names. -/
def Store.DistinctParams (s : Store) : Prop := ∀ i x v, s.value? i x = some v → v.DistinctParams

/-- The machine that is left. -/
def Ending.machine : Ending α → Machine
  | .ok _ m | .error _ m => m

theorem Value.Regular.distinctParams (h : v.Regular) : v.DistinctParams :=
  fun n d k hv => (h n d k hv).params

theorem Store.Regular.distinctParams (h : s.Regular) : s.DistinctParams :=
  fun i x v hv => (h i x v hv).distinctParams

theorem Ending.Regular.machine {outputs : α → List Value} {r : Ending α} (h : r.Regular outputs) :
    r.machine.store.Regular := by
  cases r with
  | ok => exact h.1
  | error => exact h

/-- Whatever scripts an interpreter has run, and whether they failed or not, the closures in its
store have parameters with different names. While the next script runs, that holds of all that
is in the store when a task starts and when it ends, of the function and the arguments of every
call, and of what the script returns. So every call that passes the tests of the number of
arguments and of the active calls binds its parameters without failure, and goes on with its
body in a new scope inside the captured one, which binds the parameters to the arguments, in
order, and nothing else. -/
theorem Interpreter.session_binds_parameters (config : Config) {j : Interpreter}
    (hj : (Interpreter.new config).Session j) :
    j.store.DistinctParams ∧
    ∀ (clock : Int64) (script : String) (printed : Array String),
      (∀ v, (j.runScript clock script printed).result = .ok (some v) → v.DistinctParams) ∧
      ∀ p, Program.read script = .ok p → p.check = .ok () →
        (∀ (β : Type) (t : Task β) (m : Machine),
          (Task.stmts p.body).Needs ⟨clock⟩ (j.machine printed) t m →
          m.store.DistinctParams ∧ (∀ v ∈ t.inputs, v.DistinctParams) ∧
          ∀ r, t.Ends ⟨clock⟩ m r → r.machine.store.DistinctParams) ∧
        ∀ n d k args m,
          (Task.stmts p.body).Needs ⟨clock⟩ (j.machine printed) (.call (.closure n d k) args) m →
          args.length = d.arity → m.depth < m.config.maxCallDepth →
          ∃ t, d.start k args m.deeper = .ok () { m.deeper with store := t } ∧
            m.store.AddsFrame k d.params args t ∧
            Host.planCall ⟨clock⟩ (.closure n d k) args m =
              .ask (.stmts d.body) ⟨t, m.store.nextScope, m.config, m.depth + 1, m.printed⟩
                fun r => .done (r.leaving m.scope).ofBody.fromCall := by
  have hsound : j.Sound := hj.sound (sound_new config)
  refine ⟨hsound.regular.distinctParams, fun clock script printed =>
    ⟨fun v hv => ((hsound.runScript clock script printed).2 v hv).distinctParams,
      fun p _ hcheck => ?_⟩⟩
  have hkept := Contract.kept_regular ⟨clock⟩
  have hpre : Contract.regular.pre (Task.stmts p.body) (j.machine printed) :=
    Contract.pre_regular hsound.regular rfl (Program.distinct_of_check hcheck)
  constructor
  · intro β t m hneeds
    have ht := hkept.needs hpre hneeds
    exact ⟨ht.1.distinctParams, fun v hv => (ht.2.inputs v hv).distinctParams,
      fun r hends => (hkept.ends ht hends).machine.distinctParams⟩
  · intro n d k args m hneeds harity hdepth
    obtain ⟨-, ht⟩ := hkept.needs hpre hneeds
    have hd : d.Regular := ht.inputs _ (List.mem_cons_self ..) n d k rfl
    obtain ⟨t, hstart, hframe⟩ := FunctionDef.start_of_nodup hd.params k args m.deeper
    exact ⟨t, hstart, hframe, Host.planCall_of_start harity hdepth hstart⟩

/-- `fn(a, b) {}` -/
def FunctionDef.takesTwo : FunctionDef :=
  .mk ⟨0, 11⟩ none [⟨"a", ⟨3, 4⟩⟩, ⟨"b", ⟨6, 7⟩⟩] ⟨9, 11⟩ []

/-- `fn(a, b) {}(nil, true);` -/
def Program.callsTakesTwo : Program :=
  ⟨⟨0, 23⟩, [.expr ⟨0, 23⟩ (.call ⟨0, 22⟩ (.function .takesTwo)
    [.literal ⟨12, 15⟩ .nil, .literal ⟨17, 21⟩ (.bool true)])]⟩

open Grammar in
theorem Program.read_callsTakesTwo :
    Program.read "fn(a, b) \x7b\x7d(nil, true);" = .ok .callsTakesTwo := by
  have hfn : Token.kwFn.Stands ⟨0, "fn(a, b) \x7b\x7d(nil, true);".toList⟩
      ⟨2, "(a, b) \x7b\x7d(nil, true);".toList⟩ :=
    ⟨Rule.isWord_fn.valid, rfl, by rintro c ⟨⟩; rfl, rfl⟩
  have hopen : (Token.symbol .openParen).Stands ⟨2, "(a, b) \x7b\x7d(nil, true);".toList⟩
      ⟨3, "a, b) \x7b\x7d(nil, true);".toList⟩ :=
    ⟨trivial, rfl, Symbol.ends_of_extension rfl _, rfl⟩
  have ha : Ident.Stands ⟨"a", ⟨3, 4⟩⟩ ⟨3, "a, b) \x7b\x7d(nil, true);".toList⟩
      ⟨4, ", b) \x7b\x7d(nil, true);".toList⟩ := by
    have hname : IsName ['a'] := by decide
    exact ⟨hname, ⟨⟨hname.1, hname.2.1⟩, rfl, by rintro c ⟨⟩; rfl, rfl⟩, rfl⟩
  have hcomma : (Token.symbol .comma).Stands ⟨4, ", b) \x7b\x7d(nil, true);".toList⟩
      ⟨5, " b) \x7b\x7d(nil, true);".toList⟩ :=
    ⟨trivial, rfl, Symbol.ends_of_extension rfl _, rfl⟩
  have hb : Ident.Stands ⟨"b", ⟨6, 7⟩⟩ ⟨5, " b) \x7b\x7d(nil, true);".toList⟩
      ⟨7, ") \x7b\x7d(nil, true);".toList⟩ := by
    have hname : IsName ['b'] := by decide
    exact ⟨hname, ⟨⟨hname.1, hname.2.1⟩, rfl, by rintro c ⟨⟩; rfl, rfl⟩, rfl⟩
  have hclose : (Token.symbol .closeParen).Stands ⟨7, ") \x7b\x7d(nil, true);".toList⟩
      ⟨8, " \x7b\x7d(nil, true);".toList⟩ :=
    ⟨trivial, rfl, Symbol.ends_of_extension rfl _, rfl⟩
  have hbody : Stmt.Braced [] ⟨8, " \x7b\x7d(nil, true);".toList⟩ ⟨11, "(nil, true);".toList⟩ :=
    .mk (m := ⟨10, "\x7d(nil, true);".toList⟩)
      ⟨trivial, rfl, Symbol.ends_of_extension rfl _, rfl⟩ .nil
      ⟨trivial, rfl, Symbol.ends_of_extension rfl _, rfl⟩
  have hfunction : Expr.Stands 9 (.function .takesTwo)
      ⟨0, "fn(a, b) \x7b\x7d(nil, true);".toList⟩ ⟨11, "(nil, true);".toList⟩ :=
    .function rfl rfl hfn (.mk hopen (.cons ha (.cons hcomma hb .nil)) hclose hbody)
  have hnil : Token.kwNil.Stands ⟨12, "nil, true);".toList⟩ ⟨15, ", true);".toList⟩ :=
    ⟨Token.valid_keyword (by decide), rfl, by rintro c ⟨⟩; rfl, rfl⟩
  have htrue : Token.kwTrue.Stands ⟨16, " true);".toList⟩ ⟨21, ");".toList⟩ :=
    ⟨Token.valid_keyword (by decide), rfl, by rintro c ⟨⟩; rfl, rfl⟩
  obtain ⟨d₁, hfirst, hd₁⟩ := (Expr.Stands.literal .nil hnil).weaken (Nat.zero_le 9)
    (Nat.le_refl 9)
  obtain ⟨d₂, hsecond, hd₂⟩ := (Expr.Stands.literal .true htrue).weaken (Nat.zero_le 9)
    (Nat.le_refl 9)
  have hcomma' : (Token.symbol .comma).Stands ⟨15, ", true);".toList⟩ ⟨16, " true);".toList⟩ :=
    ⟨trivial, rfl, Symbol.ends_of_extension rfl _, rfl⟩
  have hclose' : (Token.symbol .closeParen).Stands ⟨21, ");".toList⟩ ⟨22, ";".toList⟩ :=
    ⟨trivial, rfl, Symbol.ends_of_extension rfl _, rfl⟩
  have hopen' : (Token.symbol .openParen).Stands ⟨11, "(nil, true);".toList⟩
      ⟨12, "nil, true);".toList⟩ :=
    ⟨trivial, rfl, Symbol.ends_of_extension rfl _, rfl⟩
  have hsemi : (Token.symbol .semicolon).Stands ⟨22, ";".toList⟩ ⟨23, []⟩ :=
    ⟨trivial, rfl, Symbol.ends_of_extension rfl _, rfl⟩
  obtain ⟨d, hcall, hd⟩ := (Expr.Stands.call (.first (by decide) (by decide) (by decide) hfunction)
    hopen' (.cons hfirst (.cons (hcomma'.congr hd₁.symm) hsecond .nil))
    (hclose'.congr hd₂.symm)).weaken (Nat.zero_le 8) (by decide)
  exact Program.read_of_stands (.cons (.expr hcall (hsemi.congr hd.symm)) .nil) rfl

/-- A call after a script with a repeated parameter : its scope binds the two parameters. -/
theorem Interpreter.session_binds_parameters_takesTwo :
    let i := Interpreter.new ⟨.forbid, 1⟩
    let j := i.after (i.runScript 0 "fn f(a, a) \x7b\x7d" #[])
    let m : Machine := { j.machine #[] with store := j.store.takeIdentity }
    let f : Function := .closure j.store.nextIdentity .takesTwo 1
    i.Session j ∧ Program.read "fn(a, b) \x7b\x7d(nil, true);" = .ok .callsTakesTwo ∧
      Program.callsTakesTwo.check = .ok () ∧
      (Task.stmts Program.callsTakesTwo.body).Needs ⟨0⟩ (j.machine #[])
        (.call f [.nil, .bool true]) m ∧
      m.store.DistinctParams ∧ [Value.nil, .bool true].length = FunctionDef.takesTwo.arity ∧
      m.depth < m.config.maxCallDepth ∧
      ∃ t, FunctionDef.takesTwo.start 1 [.nil, .bool true] m.deeper =
          .ok () { m.deeper with store := t } ∧
        t.outer? m.store.nextScope = some 1 ∧
        ∀ x v, t.value? m.store.nextScope x = some v ↔
          (x, v) ∈ [("a", .nil), ("b", .bool true)] := by
  intro i j m f
  have hj : i.Session j := .run 0 "fn f(a, a) \x7b\x7d" #[] .start
  have hcheck : Program.callsTakesTwo.check = .ok () := rfl
  have hneeds : (Task.stmts Program.callsTakesTwo.body).Needs ⟨0⟩ (j.machine #[])
      (.call f [.nil, .bool true]) m := by
    have hfirst : (Task.expr (.literal ⟨12, 15⟩ .nil)).Ends ⟨0⟩ m (.ok .nil m) := .done _
    have hsecond : (Task.expr (.literal ⟨17, 21⟩ (.bool true))).Ends ⟨0⟩ m
      (.ok (.bool true) m) := .done _
    have hnone : (Task.exprs []).Ends ⟨0⟩ m (.ok [] m) := .done _
    have hone : (Task.exprs [.literal ⟨17, 21⟩ (.bool true)]).Ends ⟨0⟩ m (.ok [.bool true] m) :=
      .ask hsecond (.ask hnone (.done _))
    have htwo : (Task.exprs [.literal ⟨12, 15⟩ .nil, .literal ⟨17, 21⟩ (.bool true)]).Ends ⟨0⟩ m
        (.ok [.nil, .bool true] m) :=
      .ask hfirst (.ask hone (.done _))
    have hfunction : (Task.expr (.function .takesTwo)).Ends ⟨0⟩ (j.machine #[])
        (.ok (.function f) m) := .done _
    exact .asks (.asks (.asks .self .now) .now) (.later hfunction (.later htwo .now))
  obtain ⟨-, hruns⟩ := Interpreter.session_binds_parameters ⟨.forbid, 1⟩ hj
  obtain ⟨-, hrun⟩ := hruns 0 "fn(a, b) \x7b\x7d(nil, true);" #[]
  obtain ⟨htasks, hcalls⟩ := hrun .callsTakesTwo Program.read_callsTakesTwo hcheck
  obtain ⟨hstore, -, -⟩ := htasks Value (.call f [.nil, .bool true]) m hneeds
  obtain ⟨t, hstart, hframe, -⟩ := hcalls _ _ _ _ m hneeds rfl Nat.zero_lt_one
  exact ⟨hj, Program.read_callsTakesTwo, hcheck, hneeds, hstore, rfl, Nat.zero_lt_one, t, hstart,
    hframe.outer_eq, hframe.binds_iff⟩

end Scoped
