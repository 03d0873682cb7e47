import Scoped.Proofs.Parameters
import Scoped.Proofs.Resolution
import Scoped.Proofs.Traces

/-!
# Identities of function values

Function values are made by evaluations of declarations and literals, and by registrations of
natives. The log of a store lists them in the order in which they were made, one entry for each
evaluation and each registration : `Store.History` follows everything that a host does to a store,
with the log, and takes the entries of a run from its trace.

`Store.Records` says that the identities of the entries count them, and that every function value
that a scope binds is in the log. The plans of the evaluator keep it, where a task adds to the
log what it makes and nothing else (`Task.accounts_plan`). So a function value that is held
anywhere is the entry of exactly one evaluation or registration, and equality decides whether that
is the same one : `Store.function_identity`.
-/

namespace Scoped

variable {α β : Type} {host : Host} {m m' : Machine} {s t : Store} {v : Value} {f : Function}
  {made new : List Function}

/-! ## Function values that are made -/

/-- The function value that the evaluation of a declaration or a literal makes. -/
def FunctionDef.makes (d : FunctionDef) (m : Machine) : List Function :=
  match Eval.closure d m with
  | .ok (.function f) _ => [f]
  | _ => []

theorem FunctionDef.makes_eq (d : FunctionDef) (m : Machine) :
    d.makes m = [.closure m.store.nextIdentity d m.scope] := rfl

def Expr.makes : Expr → Machine → List Function
  | .function d => d.makes
  | _ => fun _ => []

def Stmt.makes : Stmt → Machine → List Function
  | .function d => d.makes
  | _ => fun _ => []

/-- The function values that a task makes itself, and not through what it asks for. -/
def Task.makes : {α : Type} → Task α → Machine → List Function
  | _, .expr e => e.makes
  | _, .stmt s => s.makes
  | _, .exprs _ | _, .stmts _ | _, .call _ _ => fun _ => []

def Moment.makes (e : Moment) : List Function := e.task.makes e.machine

theorem Expr.makes_eq_nil_or (e : Expr) (m : Machine) : e.makes m = [] ∨ ∃ d, e = .function d := by
  cases e with
  | function d => exact .inr ⟨d, rfl⟩
  | literal | ident | assign | unary | binary | logical | call => exact .inl rfl

theorem Stmt.makes_eq_nil_or (s : Stmt) (m : Machine) : s.makes m = [] ∨ ∃ d, s = .function d := by
  cases s with
  | function d => exact .inr ⟨d, rfl⟩
  | expr | print | ret | block | bind | cond => exact .inl rfl

/-! ## Logs -/

/-- If the value is a function, it is in the log. -/
def Value.Known (made : List Function) (v : Value) : Prop := ∀ f, v = .function f → f ∈ made

/-- The identities of the functions in the log count them, and the store hands the next one out.
The functions that scopes bind are in the log. -/
structure Store.Records (s : Store) (made : List Function) : Prop where
  identities : made.map Function.identity = List.range s.nextIdentity
  known : ∀ i x v, s.value? i x = some v → v.Known made

theorem Value.known_of_type (h : v.type ≠ .function) (made : List Function) : v.Known made := by
  rintro f rfl
  exact absurd rfl h

theorem Value.known_function : Value.Known made (.function f) ↔ f ∈ made :=
  ⟨fun h => h f rfl, by rintro h _ ⟨⟩; exact h⟩

theorem Value.Known.append (h : v.Known made) (new : List Function) : v.Known (made ++ new) :=
  fun f hf => List.mem_append_left _ (h f hf)

namespace Store.Records

theorem empty : Store.empty.Records [] where
  identities := rfl
  known i x v hv := by simp [Store.value?, Store.record?, Store.empty] at hv

theorem openRoot (h : s.Records made) (p : Redeclaration) : (s.openRoot p).Records made where
  identities := h.identities
  known i x v hv := h.known i x v (by simpa using hv)

theorem openInside (h : s.Records made) (i : ScopeId) (k : ScopeKind) :
    (s.openInside i k).Records made where
  identities := h.identities
  known j x v hv := h.known j x v (by simpa using hv)

theorem bind (h : s.Records made) (hv : v.Known made) (i : ScopeId) (x : String) :
    (s.bind i x v).Records made where
  identities := h.identities
  known j y u hu := by
    rw [value?_bind] at hu
    split at hu
    · cases hu
      exact hv
    · exact h.known j y u hu

/-- A function value that gets the next identity is new in the log. -/
theorem takeIdentity (h : s.Records made) (hf : f.identity = s.nextIdentity) :
    s.takeIdentity.Records (made ++ [f]) where
  identities := by
    rw [List.map_append, h.identities, List.map_singleton, hf]
    exact List.range_succ.symm
  known i x v hv := (h.known i x v hv).append [f]

/-- An entry of the log has its place as identity. -/
theorem identity_eq (h : s.Records made) {k : Nat} (hk : made[k]? = some f) : f.identity = k := by
  have hmap : (made.map Function.identity)[k]? = some f.identity := by simp [hk]
  rw [h.identities] at hmap
  obtain ⟨hlt, heq⟩ := List.getElem?_eq_some_iff.1 hmap
  simpa using heq.symm

/-- Identities tell the functions in the log apart. -/
theorem eq_of_identity_eq (h : s.Records made) {g : Function} (hf : f ∈ made) (hg : g ∈ made)
    (heq : f.identity = g.identity) : f = g := by
  obtain ⟨j, hj⟩ := List.mem_iff_getElem?.1 hf
  obtain ⟨k, hk⟩ := List.mem_iff_getElem?.1 hg
  obtain rfl : j = k := by rw [← h.identity_eq hj, ← h.identity_eq hk, heq]
  exact Option.some.inj (hj.symm.trans hk)

end Store.Records

/-! ## Plans -/

/-- The store and the inputs of a task are in accordance with the log. -/
def Task.Records (t : Task α) (made : List Function) (m : Machine) : Prop :=
  m.store.Records made ∧ ∀ v ∈ t.inputs, v.Known made

/-- The store and the values that a task ends with are in accordance with the log. -/
def Ending.Records (outputs : α → List Value) (made : List Function) : Ending α → Prop
  | .ok a m => m.store.Records made ∧ ∀ v ∈ outputs a, v.Known made
  | .error _ m => m.store.Records made

namespace Plan

/-- The plan asks only for tasks in accordance with the log, and ends in a way that has a property,
if the tasks that it asks for end in accordance with a log that they may have added to. -/
def Accounts (Q : List Function → Ending α → Prop) : List Function → Plan α → Prop
  | made, .done r => Q made r
  | made, .walk s x i next => ∀ j, s.Walks x i j → (next j).Accounts Q made
  | made, .ask t m next => t.Records made m ∧
    ∀ new r, r.Records t.outputs (made ++ new) → (next r).Accounts Q (made ++ new)

theorem accounts_after {Q : List Function → Ending α → Prop} {t : Task β}
    {next : β → Machine → Plan α} (ht : t.Records made m)
    (hok : ∀ new b m', m'.store.Records (made ++ new) →
      (∀ v ∈ t.outputs b, v.Known (made ++ new)) → (next b m').Accounts Q (made ++ new))
    (herror : ∀ new e m', m'.store.Records (made ++ new) → Q (made ++ new) (.error e m')) :
    (after t m next).Accounts Q made := by
  refine ⟨ht, fun new r hr => ?_⟩
  cases r with
  | ok b m' => exact hok new b m' hr.1 hr.2
  | error e m' => exact herror new e m' hr

end Plan

open Plan (accounts_after)

theorem Task.records_of_inputs {t : Task α} (hm : m.store.Records made) (hin : t.inputs = []) :
    t.Records made m :=
  ⟨hm, by rw [hin]; simp⟩

theorem Ending.records_ofExcept {r : Except Cause Value} (hm : m.store.Records made) (span : Span)
    (h : ∀ v, r = .ok v → v.type ≠ .function) :
    Ending.Records (fun v => [v]) made (Eval.ofExcept span r m) := by
  cases r with
  | ok v => exact ⟨hm, List.forall_mem_singleton.2 (Value.known_of_type (h v rfl) made)⟩
  | error c => exact hm

theorem Ending.records_normal (hm : m.store.Records made) :
    Ending.Records (fun c : Completion => c.value?.toList) made (.ok .normal m) :=
  ⟨hm, by simp [Completion.value?]⟩

theorem Ending.records_declare (hm : m.store.Records made) (hv : v.Known made) (id : Ident) :
    Ending.Records (fun c : Completion => c.value?.toList) made
      ((do Eval.declare id v; pure .normal : Eval Completion) m) := by
  by_cases hrefuses : m.store.refuses m.scope id.name = true
  · rw [Eval.bind_error (x := Eval.declare id v) (if_pos hrefuses)]
    exact hm
  · rw [Eval.bind_ok (x := Eval.declare id v) (if_neg hrefuses)]
    exact records_normal (hm.bind hv _ _)

theorem Ending.records_declareAll {i : ScopeId} {ids : List Ident} {args : List Value}
    (hm : m.store.Records made) (hargs : ∀ v ∈ args, v.Known made) :
    Ending.Records (fun _ => []) made (Eval.declareAll i ids args m) := by
  induction ids generalizing args m with
  | nil => exact ⟨hm, by simp⟩
  | cons id ids ih =>
    cases args with
    | nil => exact ⟨hm, by simp⟩
    | cons v args =>
      obtain ⟨hv, hargs⟩ := List.forall_mem_cons.1 hargs
      rw [Eval.declareAll]
      by_cases hrefuses : m.store.refuses i id.name = true
      · rw [Eval.bind_error (x := Eval.declareIn i id v) (if_pos hrefuses)]
        exact hm
      · rw [Eval.bind_ok (x := Eval.declareIn i id v) (if_neg hrefuses)]
        exact ih (hm.bind hv _ _) hargs

theorem Expr.accounts_plan {e : Expr} (he : e.makes m = []) (hm : m.store.Records made) :
    (e.plan m).Accounts (fun made r => r.Records (Task.expr e).outputs made) made := by
  cases e with
  | function d => cases he
  | literal _ l =>
    have hl : (Value.ofLiteral l).Known made := Value.known_of_type (Value.type_ofLiteral l) made
    exact ⟨hm, List.forall_mem_singleton.2 hl⟩
  | ident id =>
    intro j _
    dsimp only
    split
    · next v hv =>
      obtain ⟨j, -, hv⟩ := Option.bind_eq_some_iff.1 hv
      exact ⟨hm, List.forall_mem_singleton.2 (hm.known j id.name v hv)⟩
    · exact hm
  | assign span target e =>
    refine accounts_after (Task.records_of_inputs hm rfl) (fun new v m₁ h₁ hv j _ => ?_)
      fun _ _ _ h₁ => h₁
    cases j with
    | some j => exact ⟨h₁.bind (List.forall_mem_singleton.1 hv) _ _, hv⟩
    | none => exact h₁
  | unary span op e =>
    exact accounts_after (Task.records_of_inputs hm rfl)
      (fun _ v m₁ h₁ _ => Ending.records_ofExcept h₁ span fun _ => UnaryOp.type_apply)
      fun _ _ _ h₁ => h₁
  | binary span op l r =>
    refine accounts_after (Task.records_of_inputs hm rfl) (fun _ a m₁ h₁ _ => ?_)
      fun _ _ _ h₁ => h₁
    exact accounts_after (Task.records_of_inputs h₁ rfl)
      (fun _ b m₂ h₂ _ => Ending.records_ofExcept h₂ span fun _ => BinaryOp.type_apply)
      fun _ _ _ h₂ => h₂
  | logical span op l r =>
    refine accounts_after (Task.records_of_inputs hm rfl) (fun _ a m₁ h₁ ha => ?_)
      fun _ _ _ h₁ => h₁
    split
    · exact ⟨h₁, ha⟩
    · exact ⟨Task.records_of_inputs h₁ rfl, fun _ _ hr => hr⟩
  | call span f args =>
    refine accounts_after (Task.records_of_inputs hm rfl) (fun _ v m₁ h₁ hv => ?_)
      fun _ _ _ h₁ => h₁
    cases v with
    | nil | bool | number | string => exact h₁
    | function f =>
      refine accounts_after (Task.records_of_inputs h₁ rfl) (fun new vs m₂ h₂ hvs => ?_)
        fun _ _ _ h₂ => h₂
      -- the function was known before its arguments were evaluated
      have hf : Value.Known _ (.function f) := (List.forall_mem_singleton.1 hv).append new
      refine ⟨⟨h₂, List.forall_mem_cons.2 ⟨hf, hvs⟩⟩, fun _ r hr => ?_⟩
      cases r <;> exact hr

theorem Expr.accounts_planAll (es : List Expr) (hm : m.store.Records made) :
    (Expr.planAll es m).Accounts (fun made r => r.Records (Task.exprs es).outputs made) made := by
  cases es with
  | nil => exact ⟨hm, by simp [Task.outputs]⟩
  | cons e es =>
    refine accounts_after (Task.records_of_inputs hm rfl) (fun _ v m₁ h₁ hv => ?_)
      fun _ _ _ h₁ => h₁
    refine accounts_after (Task.records_of_inputs h₁ rfl) (fun new vs m₂ h₂ hvs => ?_)
      fun _ _ _ h₂ => h₂
    exact ⟨h₂, List.forall_mem_cons.2 ⟨(List.forall_mem_singleton.1 hv).append new, hvs⟩⟩

theorem Stmt.accounts_plan {s : Stmt} (hs : s.makes m = []) (hm : m.store.Records made) :
    (s.plan m).Accounts (fun made r => r.Records (Task.stmt s).outputs made) made := by
  cases s with
  | function d => cases hs
  | expr _ e | print _ e =>
    exact accounts_after (Task.records_of_inputs hm rfl)
      (fun _ v m₁ h₁ _ => Ending.records_normal h₁) fun _ _ _ h₁ => h₁
  | ret _ e =>
    cases e with
    | none =>
      have hnil : Value.nil.Known made := Value.known_of_type (by simp [Value.type]) made
      exact ⟨hm, List.forall_mem_singleton.2 hnil⟩
    | some e =>
      exact accounts_after (Task.records_of_inputs hm rfl) (fun _ v m₁ h₁ hv => ⟨h₁, hv⟩)
        fun _ _ _ h₁ => h₁
  | block _ body =>
    refine ⟨Task.records_of_inputs (hm.openInside _ _) rfl, fun _ r hr => ?_⟩
    cases r <;> exact hr
  | bind _ id e =>
    cases e with
    | none => exact Ending.records_declare hm (Value.known_of_type (by simp [Value.type]) made) id
    | some e =>
      exact accounts_after (Task.records_of_inputs hm rfl)
        (fun _ v m₁ h₁ hv => Ending.records_declare h₁ (List.forall_mem_singleton.1 hv) id)
        fun _ _ _ h₁ => h₁
  | cond _ test a b =>
    cases b with
    | none =>
      refine accounts_after (Task.records_of_inputs hm rfl) (fun _ v m₁ h₁ _ => ?_)
        fun _ _ _ h₁ => h₁
      split
      · exact ⟨Task.records_of_inputs h₁ rfl, fun _ _ hr => hr⟩
      · exact Ending.records_normal h₁
    | some b =>
      refine accounts_after (Task.records_of_inputs hm rfl) (fun _ v m₁ h₁ _ => ?_)
        fun _ _ _ h₁ => h₁
      split <;> exact ⟨Task.records_of_inputs h₁ rfl, fun _ _ hr => hr⟩

theorem Stmt.accounts_planAll (ss : List Stmt) (hm : m.store.Records made) :
    (Stmt.planAll ss m).Accounts (fun made r => r.Records (Task.stmts ss).outputs made) made := by
  cases ss with
  | nil => exact Ending.records_normal hm
  | cons s ss =>
    refine accounts_after (Task.records_of_inputs hm rfl) (fun _ c m₁ h₁ hc => ?_)
      fun _ _ _ h₁ => h₁
    cases c with
    | normal => exact ⟨Task.records_of_inputs h₁ rfl, fun _ _ hr => hr⟩
    | returned v => exact ⟨h₁, hc⟩

theorem Host.accounts_planCall {args : List Value} (hm : m.store.Records made)
    (hargs : ∀ v ∈ args, v.Known made) :
    (host.planCall f args m).Accounts (fun made r => r.Records (Task.call f args).outputs made)
      made := by
  rw [Host.planCall.eq_def]
  split
  · exact hm
  split
  · exact hm
  cases f with
  | native _ n =>
    dsimp only
    split
    · next v hv =>
      have hknown : v.Known made := Value.known_of_type (Native.type_apply hv) made
      exact ⟨hm, List.forall_mem_singleton.2 hknown⟩
    · exact hm
  | closure n d k =>
    have hstart : Ending.Records (fun _ => []) made (d.start k args m.deeper) :=
      Ending.records_declareAll (m := m.deeper.opened k (.call d.name?)) (hm.openInside _ _) hargs
    dsimp only
    split
    · next m₁ hs =>
      rw [hs] at hstart
      refine ⟨Task.records_of_inputs hstart.1 rfl, fun new r hr => ?_⟩
      cases r with
      | error e m₂ => exact hr
      | ok c m₂ =>
        -- a body that does not return gives `nil`
        cases c with
        | normal =>
          have hnil : Value.nil.Known (made ++ new) :=
            Value.known_of_type (by simp [Value.type]) _
          exact ⟨hr.1, List.forall_mem_singleton.2 hnil⟩
        | returned v => exact hr
    · next e m₁ hs =>
      rw [hs] at hstart
      exact hstart

/-- Every task keeps stores and values in accordance with the log, where it adds what it makes. -/
theorem Task.accounts_plan {t : Task α} (h : t.Records made m) :
    (t.plan host m).Accounts (fun made r => r.Records t.outputs made) (made ++ t.makes m) := by
  have hclosure : ∀ d : FunctionDef, m.store.takeIdentity.Records (made ++ d.makes m) := fun d =>
    h.1.takeIdentity rfl
  have hknown : ∀ d : FunctionDef, Value.Known (made ++ d.makes m)
      (.function (.closure m.store.nextIdentity d m.scope)) := fun d =>
    Value.known_function.2 (by simp [d.makes_eq])
  cases t with
  | expr e =>
    rcases e.makes_eq_nil_or m with hnil | ⟨d, rfl⟩
    · rw [Task.makes, hnil, List.append_nil]
      exact Expr.accounts_plan hnil h.1
    · exact ⟨hclosure d, List.forall_mem_singleton.2 (hknown d)⟩
  | stmt s =>
    rcases s.makes_eq_nil_or m with hnil | ⟨d, rfl⟩
    · rw [Task.makes, hnil, List.append_nil]
      exact Stmt.accounts_plan hnil h.1
    · simp only [Task.plan, Stmt.plan]
      split
      · next id _ =>
        exact Ending.records_declare (m := { m with store := m.store.takeIdentity }) (hclosure d)
          (hknown d) id
      · exact Ending.records_normal (m := { m with store := m.store.takeIdentity }) (hclosure d)
  | exprs es =>
    rw [Task.makes, List.append_nil]
    exact Expr.accounts_planAll es h.1
  | stmts ss =>
    rw [Task.makes, List.append_nil]
    exact Stmt.accounts_planAll ss h.1
  | call f args =>
    rw [Task.makes, List.append_nil]
    exact Host.accounts_planCall h.1 fun v hv => h.2 v (List.mem_cons_of_mem _ hv)

/-! ## Runs -/

namespace Moment

variable {e : Moment}

/-- A task started in accordance with a log to which it added what it makes, and ended in accordance
with a later log. Both are beginnings of the whole log. -/
structure Recorded (e : Moment) (made : List Function) : Prop where
  starts : ∃ before, before ++ e.makes <+: made ∧ e.task.Records before e.machine
  ends : ∃ after, after <+: made ∧ e.ending.Records e.task.outputs after

theorem Recorded.mono (h : e.Recorded made) {made' : List Function} (hle : made <+: made') :
    e.Recorded made' := by
  obtain ⟨⟨before, hbefore, hstarts⟩, after, hafter, hends⟩ := h
  exact ⟨⟨before, hbefore.trans hle, hstarts⟩, after, hafter.trans hle, hends⟩

end Moment

/-- What comes up while a plan is carried out is recorded, in the log with what the trace makes. -/
theorem Plan.Traces.recorded {p : Plan α} {r : Ending α} {es : List Moment}
    (h : p.Traces host r es) {Q : List Function → Ending α → Prop} (hp : p.Accounts Q made) :
    Q (made ++ es.flatMap Moment.makes) r ∧
      ∀ e ∈ es, e.Recorded (made ++ es.flatMap Moment.makes) := by
  induction h generalizing made with
  | done r =>
    rw [List.flatMap_nil, List.append_nil]
    exact ⟨hp, by simp⟩
  | walk hw _ ih => exact ih (hp _ hw)
  | @ask α β t m q next r es es' _ _ ihTask ihNext =>
    obtain ⟨hstart, hrest⟩ := hp
    obtain ⟨hq, hes⟩ := ihTask (Task.accounts_plan hstart)
    rw [List.append_assoc] at hq hes
    obtain ⟨hr, hes'⟩ := ihNext (hrest _ q hq)
    have hmakes : made ++ (⟨t, m, q⟩ :: (es ++ es')).flatMap Moment.makes =
        made ++ (t.makes m ++ es.flatMap Moment.makes) ++ es'.flatMap Moment.makes := by
      simp [Moment.makes]
    rw [hmakes]
    have hself : made ++ t.makes m <+: made ++ (t.makes m ++ es.flatMap Moment.makes) :=
      ⟨_, List.append_assoc ..⟩
    have hbetween : made ++ (t.makes m ++ es.flatMap Moment.makes) <+:
        made ++ (t.makes m ++ es.flatMap Moment.makes) ++ es'.flatMap Moment.makes :=
      List.prefix_append ..
    refine ⟨hr, List.forall_mem_cons.2 ⟨⟨⟨made, hself.trans hbetween, hstart⟩, _, hbetween, hq⟩,
      fun e he => ?_⟩⟩
    rcases List.mem_append.1 he with he | he
    · exact (hes e he).mono hbetween
    · exact hes' e he

theorem Task.Traces.recorded {t : Task α} {r : Ending α} {es : List Moment}
    (h : t.Traces host m r es) (ht : t.Records made m) :
    r.Records t.outputs (made ++ es.flatMap Moment.makes) ∧
      ∀ e ∈ es, e.Recorded (made ++ es.flatMap Moment.makes) := by
  obtain ⟨inner, hinner, rfl⟩ := h
  obtain ⟨hr, hes⟩ := hinner.recorded (Task.accounts_plan ht)
  have hmakes : made ++ t.makes m ++ inner.flatMap Moment.makes =
      made ++ (⟨t, m, r⟩ :: inner).flatMap Moment.makes := by
    simp [Moment.makes]
  rw [hmakes] at hr hes
  refine ⟨hr, List.forall_mem_cons.2 ⟨⟨⟨made, ?_, ht⟩, _, List.prefix_rfl, hr⟩, hes⟩⟩
  exact ⟨inner.flatMap Moment.makes, hmakes⟩

theorem Ending.Records.store {outputs : α → List Value} {r : Ending α}
    (h : r.Records outputs made) : r.machine.store.Records made := by
  cases r with
  | ok => exact h.1
  | error => exact h

/-! ## Histories -/

/-- What a host may have the evaluator carry out : a task in a scope that exists, about values that
capture no other scopes and are in the log if they are functions. -/
structure Task.Started (t : Task α) (made : List Function) (m : Machine) : Prop where
  scope : m.scope < m.store.scopes.size
  inputs : ∀ v ∈ t.inputs, m.store.Holds v ∧ v.Known made

/-- The stores that a host can make, with the log of the function values that were made. A host
opens scopes, and binds and assigns names to values that are no functions or are in the log. It
registers natives, each with an identity of its own, and has the evaluator carry out tasks : the
statements of programs, and calls. Whatever fails leaves the store. -/
inductive Store.History : Store → List Function → Prop
  | start : History .empty []
  | openRoot {s : Store} {made : List Function} (p : Redeclaration) : History s made →
    History (s.openRoot p) made
  | openInside {s : Store} {made : List Function} {i : ScopeId} (k : ScopeKind) :
    History s made → i < s.scopes.size → History (s.openInside i k) made
  | bind {s : Store} {made : List Function} {v : Value} (i : ScopeId) (x : String) :
    History s made → s.Holds v → v.Known made → History (s.bind i x v) made
  | define {s t : Store} {made : List Function} {i : ScopeId} {x : String} {v : Value} :
    History s made → s.Holds v → v.Known made → s.define i x v = .ok t → History t made
  | assign {s t : Store} {made : List Function} {i : ScopeId} {x : String} {v : Value} :
    History s made → s.Holds v → v.Known made → s.assign i x v = .ok t → History t made
  | native {s : Store} {made : List Function} (n : Native) : History s made →
    History s.takeIdentity (made ++ [.native s.nextIdentity n])
  | run {α : Type} {host : Host} {t : Task α} {m : Machine} {made : List Function} {r : Ending α}
    {es : List Moment} : History m.store made → t.Started made m → t.Traces host m r es →
    History r.machine.store (made ++ es.flatMap Moment.makes)

theorem Task.Fits.wellFormed_run {t : Task α} (ht : t.Fits m) :
    (t.run host m).machine.store.WellFormed := by
  have hfinal : (t.run host m).machine = Eval.final (t.run host) m := by
    unfold Eval.final
    cases t.run host m <;> rfl
  rw [hfinal]
  exact (Invariant.kept ht.respects ht.store).1

namespace Store.History

theorem wellFormed (h : s.History made) : s.WellFormed := by
  induction h with
  | start => exact .empty
  | openRoot p _ ih => exact ih.openRoot p
  | openInside k _ hi ih => exact ih.openInside hi k
  | bind i x _ hv _ ih => exact ih.bind hv
  | define _ hv _ hd ih =>
    obtain ⟨-, rfl⟩ := define_eq_ok_iff.1 hd
    exact ih.bind hv
  | assign _ hv _ ha ih =>
    obtain ⟨j, -, rfl⟩ := (assign_eq_ok_iff ih).1 ha
    exact ih.bind hv
  | native n _ ih => exact ⟨ih.outer_lt, ih.holds⟩
  | @run α host t m made r es _ ht hes ih =>
    have hfits : t.Fits m := ⟨ih, ht.scope, fun v hv => (ht.inputs v hv).1⟩
    obtain ⟨inner, hinner, -⟩ := hes
    rw [(t.ends_iff hfits).1 hinner.ends]
    exact hfits.wellFormed_run

theorem records (h : s.History made) : s.Records made := by
  induction h with
  | start => exact .empty
  | openRoot p _ ih => exact ih.openRoot p
  | openInside k _ _ ih => exact ih.openInside _ k
  | bind i x _ _ hv ih => exact ih.bind hv i x
  | define _ _ hv hd ih =>
    obtain ⟨-, rfl⟩ := define_eq_ok_iff.1 hd
    exact ih.bind hv _ _
  | assign h _ hv ha ih =>
    obtain ⟨j, -, rfl⟩ := (assign_eq_ok_iff h.wellFormed).1 ha
    exact ih.bind hv _ _
  | native n _ ih => exact ih.takeIdentity rfl
  | run _ ht hes ih => exact (hes.recorded ⟨ih, fun v hv => (ht.inputs v hv).2⟩).1.store

/-- A native that is registered and bound. -/
theorem register (h : s.History made) (i : ScopeId) :
    ∃ new, (s.register i).History (made ++ new) := by
  unfold Store.register
  generalize Native.all = ns
  induction ns generalizing s made with
  | nil => exact ⟨[], by simpa using h⟩
  | cons n ns ih =>
    have hknown : Value.Known (made ++ [.native s.nextIdentity n])
        (.function (.native s.nextIdentity n)) := Value.known_function.2 (by simp)
    obtain ⟨new, hnew⟩ := ih ((h.native n).bind i n.name (by rintro k ⟨⟩) hknown)
    exact ⟨_, by simpa using hnew⟩

end Store.History

/-- The store of a new interpreter has a history. -/
theorem Interpreter.exists_history_new (config : Config) :
    ∃ made, (Interpreter.new config).store.History made := by
  have hroot : 0 < (Store.empty.openRoot config.redeclaration).scopes.size := Nat.zero_lt_one
  have hsize := (Store.becomes_register hroot).grows.size_le
  obtain ⟨new, hnew⟩ := (Store.History.start.openRoot config.redeclaration).register 0
  exact ⟨_, hnew.openInside .block (hroot.trans_le hsize)⟩

/-! ## The main result -/

/-- Some scope binds a name to the function value. -/
def Store.BindsFunction (s : Store) (f : Function) : Prop :=
  ∃ i x, s.value? i x = some (.function f)

/-- A function value is held when the task starts, in a scope or as an input, or when it ends, in a
scope or as one of the values that it ends with. -/
def Moment.Holds (e : Moment) (f : Function) : Prop :=
  e.machine.store.BindsFunction f ∨ .function f ∈ e.task.inputs ∨
    e.ending.machine.store.BindsFunction f ∨
    ∃ a m, e.ending = .ok a m ∧ .function f ∈ e.task.outputs a

theorem Store.Records.mem_of_binds (h : s.Records made) (hf : s.BindsFunction f) : f ∈ made := by
  obtain ⟨i, x, hv⟩ := hf
  exact h.known i x _ hv f rfl

/-- What is held in a moment is in the log. -/
theorem Moment.Recorded.mem_of_holds {e : Moment} (h : e.Recorded made) (hf : e.Holds f) :
    f ∈ made := by
  obtain ⟨⟨before, hbefore, hstore, hinputs⟩, after, hafter, hends⟩ := h
  have hle : before ⊆ made := ((List.prefix_append ..).trans hbefore).subset
  rcases hf with hf | hf | hf | ⟨a, m, ha, hf⟩
  · exact hle (hstore.mem_of_binds hf)
  · exact hle (hinputs _ hf f rfl)
  · exact hafter.subset (hends.store.mem_of_binds hf)
  · rw [ha] at hends
    exact hafter.subset (hends.2 _ hf f rfl)

/-- What a task makes has an identity that no function value bound before has. -/
theorem Moment.Recorded.identity_ne {e : Moment} (h : e.Recorded made) (hmade : s.Records made)
    (hf : f ∈ e.makes) {g : Function} (hg : e.machine.store.BindsFunction g) :
    f.identity ≠ g.identity := by
  obtain ⟨⟨before, hbefore, hstore, -⟩, -⟩ := h
  intro heq
  have hnodup : (before ++ e.makes).Nodup :=
    (List.Nodup.of_map Function.identity (hmade.identities ▸ List.nodup_range)).sublist
      hbefore.sublist
  have hgbefore : g ∈ before := hstore.mem_of_binds hg
  have hfg : f = g := hmade.eq_of_identity_eq (hbefore.subset (List.mem_append_right _ hf))
    (hbefore.subset (List.mem_append_left _ hgbefore)) heq
  exact List.disjoint_of_nodup_append hnodup hgbefore (hfg ▸ hf)

/-- A literal gives the function value that it makes, and a declaration that is not refused binds
its name to it. -/
theorem FunctionDef.run_makes (host : Host) (d : FunctionDef) (m : Machine) :
    ∃ f, d.makes m = [f] ∧
      (∃ m', (Task.expr (.function d)).run host m = .ok (.function f) m') ∧
      ∀ id m', d.id = some id → m.scope < m.store.scopes.size →
        (Task.stmt (.function d)).run host m = .ok .normal m' →
        m'.store.value? m.scope id.name = some (.function f) := by
  refine ⟨_, d.makes_eq m, ⟨{ m with store := m.store.takeIdentity }, ?_⟩,
    fun id m' hid hscope hrun => ?_⟩
  · rw [Task.run_eq]
    rfl
  · simp only [Task.run_eq, Task.plan, Stmt.plan, hid, Plan.run] at hrun
    rw [Eval.bind_ok (x := Eval.closure d) rfl] at hrun
    by_cases hrefuses : m.store.takeIdentity.refuses m.scope id.name = true
    · rw [Eval.bind_error (x := Eval.declare id _)
        (m := { m with store := m.store.takeIdentity }) (if_pos hrefuses)] at hrun
      cases hrun
    · rw [Eval.bind_ok (x := Eval.declare id _)
        (m := { m with store := m.store.takeIdentity }) (if_neg hrefuses)] at hrun
      cases hrun
      rw [Store.value?_bind, if_pos ⟨rfl, rfl, hscope⟩]

/-- Each function value of the log has one place in it. Two of them are equal, for the operator of
the language and for the equality of values, if and only if they have the same place, and equal
closures have the same definition and captured scope. -/
structure Function.Identified (made : List Function) : Prop where
  place : ∀ f ∈ made, ∃! k : Nat, made[k]? = some f
  equal_iff : ∀ f ∈ made, ∀ g ∈ made,
    BinaryOp.eq.apply (.function f) (.function g) = .ok (.bool true) ↔
      ∃ k : Nat, made[k]? = some f ∧ made[k]? = some g
  identical_iff : ∀ f ∈ made, ∀ g ∈ made,
    Value.identical (.function f) (.function g) = true ↔
      ∃ k : Nat, made[k]? = some f ∧ made[k]? = some g
  closure_eq : ∀ n d i n' d' i', .closure n d i ∈ made → .closure n' d' i' ∈ made →
    Value.equal (.function (.closure n d i)) (.function (.closure n' d' i')) = true →
    d = d' ∧ i = i'

theorem Store.Records.identified (h : s.Records made) : Function.Identified made := by
  have hsame : ∀ f ∈ made, ∀ g ∈ made, f.identity = g.identity ↔
      ∃ k : Nat, made[k]? = some f ∧ made[k]? = some g := by
    intro f hf g hg
    constructor
    · intro heq
      obtain rfl := h.eq_of_identity_eq hf hg heq
      obtain ⟨k, hk⟩ := List.mem_iff_getElem?.1 hf
      exact ⟨k, hk, hk⟩
    · rintro ⟨k, hf, hg⟩
      rw [h.identity_eq hf, h.identity_eq hg]
  refine ⟨fun f hf => ?_, fun f hf g hg => ?_, fun f hf g hg => ?_, ?_⟩
  · obtain ⟨k, hk⟩ := List.mem_iff_getElem?.1 hf
    refine ⟨k, hk, fun j hj => ?_⟩
    rw [← h.identity_eq hj, h.identity_eq hk]
  · rw [← hsame f hf g hg]
    simp [BinaryOp.apply, Value.equal]
  · rw [← hsame f hf g hg]
    simp [Value.identical, Value.equal]
  · intro n d i n' d' i' hf hg heq
    cases h.eq_of_identity_eq hf hg (of_decide_eq_true heq)
    exact ⟨rfl, rfl⟩

/-- A task that is carried out after a history has one trace, and the history goes on with it. -/
theorem Store.History.exists_trace (h : m.store.History made) (host : Host) {t : Task α}
    (ht : t.Started made m) :
    ∃ es, (∀ r es', t.Traces host m r es' ↔ r = t.run host m ∧ es' = es) ∧
      (t.run host m).machine.store.History (made ++ es.flatMap Moment.makes) ∧
      ∀ e ∈ es, e.Recorded (made ++ es.flatMap Moment.makes) := by
  have hfits : t.Fits m := ⟨h.wellFormed, ht.scope, fun v hv => (ht.inputs v hv).1⟩
  obtain ⟨es, hes⟩ := Task.exists_trace host hfits
  have htrace : t.Traces host m (t.run host m) es := (hes _ _).2 ⟨rfl, rfl⟩
  exact ⟨es, hes, h.run ht htrace,
    (htrace.recorded ⟨h.records, fun v hv => (ht.inputs v hv).2⟩).2⟩

/-- Whatever a host did, from a store without scopes on, `made` lists the function values that were
made, one for each evaluation of a declaration or a literal and each registration of a native.
Every function value that a scope binds is one of them, and equality tells them apart by their
places in the list.

The next task that the evaluator carries out has one trace, and the list goes on with what the
trace makes. In every moment of it, the function values that are held, in scopes, as the function
and the arguments of a call, or as results, are in the list that results, whose places equality
tells apart too. What an evaluation of a declaration or a literal makes is in that list, and is
not equal to any function value that a scope binds before. It is the only one that is made there,
the result of the literal, and what the name of the declaration is bound to. -/
theorem Store.function_identity (h : s.History made) :
    (∀ f, s.BindsFunction f → f ∈ made) ∧ Function.Identified made ∧
    (∀ {α : Type} (host : Host) (t : Task α) (m : Machine), m.store = s → t.Started made m →
      ∃ es, (∀ r es', t.Traces host m r es' ↔ r = t.run host m ∧ es' = es) ∧
        (t.run host m).machine.store.History (made ++ es.flatMap Moment.makes) ∧
        Function.Identified (made ++ es.flatMap Moment.makes) ∧
        ∀ e ∈ es, (∀ f, e.Holds f → f ∈ made ++ es.flatMap Moment.makes) ∧
          ∀ f ∈ e.makes, f ∈ made ++ es.flatMap Moment.makes ∧
            ∀ g, e.machine.store.BindsFunction g →
              BinaryOp.eq.apply (.function f) (.function g) = .ok (.bool false) ∧
              Value.identical (.function f) (.function g) = false) ∧
    (∀ (p : Program) (host : Host) (config : Config) (i : ScopeId) (printed : Array String),
      i < s.scopes.size → ∃ new,
        (p.execute host config s i printed).store.History (made ++ new) ∧
        ∀ f, (p.execute host config s i printed).result = .ok (some (.function f)) →
          f ∈ made ++ new) ∧
    ∀ (host : Host) (d : FunctionDef) (m : Machine), ∃ f, d.makes m = [f] ∧
      (∃ m', (Task.expr (.function d)).run host m = .ok (.function f) m') ∧
      ∀ id m', d.id = some id → m.scope < m.store.scopes.size →
        (Task.stmt (.function d)).run host m = .ok .normal m' →
        m'.store.value? m.scope id.name = some (.function f) := by
  refine ⟨fun f => h.records.mem_of_binds, h.records.identified, ?_, ?_, FunctionDef.run_makes⟩
  · rintro α host t m rfl ht
    obtain ⟨es, hes, hhistory, hrecorded⟩ := h.exists_trace host ht
    refine ⟨es, hes, hhistory, hhistory.records.identified, fun e he => ⟨fun f hf => ?_,
      fun f hf => ⟨?_, fun g hg => ?_⟩⟩⟩
    · exact (hrecorded e he).mem_of_holds hf
    · obtain ⟨⟨before, hbefore, -⟩, -⟩ := hrecorded e he
      exact hbefore.subset (List.mem_append_right _ hf)
    · have hne := (hrecorded e he).identity_ne hhistory.records hf hg
      simp [BinaryOp.apply, Value.identical, Value.equal, hne]
  · intro p host config i printed hi
    have ht : (Task.stmts p.body).Started made ⟨s, i, config, 0, printed⟩ := ⟨hi, by simp⟩
    obtain ⟨es, hes, hhistory, hrecorded⟩ := Store.History.exists_trace
      (m := ⟨s, i, config, 0, printed⟩) h host ht
    obtain ⟨inner, -, rfl⟩ := (hes _ es).2 ⟨rfl, rfl⟩
    have hwhole := hrecorded _ (List.mem_cons_self ..)
    rw [Program.execute_eq]
    cases hr : (Task.stmts p.body).run host ⟨s, i, config, 0, printed⟩ with
    | error e m =>
      rw [hr] at hhistory
      exact ⟨_, hhistory, fun f hf => by cases hf⟩
    | ok c m =>
      rw [hr] at hhistory hwhole
      refine ⟨_, hhistory, fun f hf => hwhole.mem_of_holds (.inr (.inr (.inr ⟨c, m, rfl, ?_⟩)))⟩
      exact Option.mem_toList.2 (Except.ok.inj hf)

/-- `return fn() {};` -/
def Program.returnsLiteral : Program :=
  ⟨⟨0, 15⟩, [.ret ⟨0, 15⟩ (some (.function (.mk ⟨7, 14⟩ none [] ⟨12, 14⟩ [])))]⟩

/-- The same literal, evaluated twice in the globals : the definition and the captured scope
coincide, and the function values are different. -/
theorem Store.function_identity_returnsLiteral :
    let i := Interpreter.new ⟨.forbid, 1⟩
    let first := i.execute 0 .returnsLiteral #[]
    let second := (i.after first).execute 0 .returnsLiteral #[]
    let d : FunctionDef := .mk ⟨7, 14⟩ none [] ⟨12, 14⟩ []
    ∃ made : List Function, second.store.History made ∧
      first.result = .ok (some (.function (.closure 4 d 1))) ∧
      second.result = .ok (some (.function (.closure 5 d 1))) ∧
      made[4]? = some (.closure 4 d 1) ∧ made[5]? = some (.closure 5 d 1) ∧
      BinaryOp.eq.apply (.function (.closure 4 d 1)) (.function (.closure 5 d 1)) ≠
        .ok (.bool true) ∧
      Value.identical (.function (.closure 4 d 1)) (.function (.closure 5 d 1)) ≠ true := by
  intro i first second d
  have hfirst : first.result = .ok (some (.function (.closure 4 d 1))) := by
    with_unfolding_all rfl
  have hsecond : second.result = .ok (some (.function (.closure 5 d 1))) := by
    with_unfolding_all rfl
  obtain ⟨natives, hnew⟩ := Interpreter.exists_history_new ⟨.forbid, 1⟩
  obtain ⟨-, -, -, hexecute, -⟩ := Store.function_identity hnew
  obtain ⟨new₁, hhistory₁, hresult₁⟩ :=
    hexecute .returnsLiteral ⟨0⟩ ⟨.forbid, 1⟩ 1 #[] (by with_unfolding_all decide)
  obtain ⟨-, -, -, hexecute', -⟩ := Store.function_identity hhistory₁
  obtain ⟨new₂, hhistory₂, hresult₂⟩ :=
    hexecute' .returnsLiteral ⟨0⟩ ⟨.forbid, 1⟩ 1 #[] (by with_unfolding_all decide)
  obtain ⟨-, hidentified, -⟩ := Store.function_identity hhistory₂
  have hf := List.mem_append_left new₂ (hresult₁ _ hfirst)
  have hg := hresult₂ _ hsecond
  obtain ⟨j, hj, -⟩ := hidentified.place _ hf
  obtain ⟨k, hk, -⟩ := hidentified.place _ hg
  obtain rfl : 4 = j := hhistory₂.records.identity_eq hj
  obtain rfl : 5 = k := hhistory₂.records.identity_eq hk
  have hne : ¬∃ k : Nat, (natives ++ new₁ ++ new₂)[k]? = some (.closure 4 d 1) ∧
      (natives ++ new₁ ++ new₂)[k]? = some (.closure 5 d 1) := by
    rintro ⟨k, h₄, h₅⟩
    cases h₄.symm.trans h₅
  exact ⟨_, hhistory₂, hfirst, hsecond, hj, hk,
    fun h => hne ((hidentified.equal_iff _ hf _ hg).1 h),
    fun h => hne ((hidentified.identical_iff _ hf _ hg).1 h)⟩

end Scoped
