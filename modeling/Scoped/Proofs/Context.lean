import Scoped.Proofs.Simulation

/-!
# Contexts are restored

Blocks and calls change the scope of a run and count the active calls by hand, and an error
can leave them at any point. `Host.context_restored` says that every computation of the
evaluator, whichever way it ends, leaves the context as it found it.

So the number of calls that may still become active is the same before and after each part
of an evaluation, and the evaluator meets the plain recursion equations in which a call
looks at the machine alone : `Host.eval_eq`, `Host.execAll_eq` and `Host.call_eq`.
-/

namespace Scoped

open Simulation

variable {α : Type} {m : Machine}

/-- Nothing is asked of the store. -/
def Invariant.none : Invariant where
  inv _ := True
  ok _ _ := True
  seen _ _ := True
  home _ _ := True
  ok_grows _ _ := trivial
  seen_grows _ _ := trivial
  home_grows _ _ := trivial
  seen_of_home _ := trivial
  ok_data _ := trivial
  seen_captured _ := trivial
  ok_get? _ _ _ := trivial
  assign _ _ _ _ := trivial
  declare _ _ _ := trivial
  takeIdentity _ := trivial
  ok_closure _ _ := trivial
  openInside _ _ := trivial
  home_openInside _ _ := trivial

/-- Two runs in one store. -/
abbrev Simulation.same : Simulation := Invariant.none.simulation

/-! ## The recursion of the evaluator -/

theorem Simulation.eq_of_steps {m' n' : Machine} (h : Simulation.same.Steps m m m' n') :
    m' = n' := by
  obtain ⟨l, hm, hn⟩ := h.printed
  have hc : m'.context = n'.context := h.left.trans h.right.symm
  have hs : n'.store = m'.store := h.rel.1
  cases m'
  cases n'
  simp_all [Machine.context]

theorem Simulation.eq_of_respects {Q : Store → α → Prop} {x y : Eval α}
    (h : Simulation.same.Respects m.store m.context m.context Q x y) : x m = y m := by
  have h := h (.refl _) rfl rfl ⟨rfl, trivial⟩
  generalize x m = r at h ⊢
  generalize y m = r' at h ⊢
  cases h with
  | ok _ h => rw [eq_of_steps h]
  | error h => rw [eq_of_steps h]

/-- In a context, the calls of the evaluator are those of the number of calls that remain. -/
theorem respectsCalls_callWithin_call (host : Host) (c : Context) :
    Simulation.same.RespectsCalls c (host.callWithin c.remaining) host.call := by
  intro w i f args hf hargs m n hw hm hn hr
  unfold Host.call
  rw [remaining_of_context hn]
  exact respects_callWithin host c.remaining hf hargs hw hm hn hr

namespace Host

variable (host : Host)

theorem eval_eq (e : Expr) : host.eval e = e.eval host.call := by
  funext m
  have hcall := respectsCalls_callWithin_call host m.context
  have h := respects_eval hcall e (w := m.store) (i := m.scope) trivial
  exact (eq_of_respects h :)

theorem exec_eq (s : Stmt) : host.exec s = s.exec host.call := by
  funext m
  have hcall := respectsCalls_callWithin_call host m.context
  have h := respects_exec hcall s (w := m.store) (i := m.scope) trivial
  exact (eq_of_respects h :)

theorem execAll_eq (ss : List Stmt) : host.execAll ss = Stmt.execAll host.call ss := by
  funext m
  have hcall := respectsCalls_callWithin_call host m.context
  have h := respects_execAll hcall ss (w := m.store) (i := m.scope) trivial
  exact (eq_of_respects h :)

/-- What a function does once it is called. -/
def apply : Function → List Value → Eval Value
  | .closure _ d k, args => d.invoke host.call k args
  | .native _ n, args => fun m =>
    match n.apply host.clock args with
    | .ok v => .ok v m
    | .error e => .error ⟨e, none⟩ m

/-- A call checks the number of arguments, then the number of active calls, and goes on. -/
theorem call_eq (f : Function) (args : List Value) (m : Machine) :
    host.call f args m =
      if args.length ≠ f.arity then .error ⟨.arityMismatch f.arity args.length, none⟩ m
      else if m.config.maxCallDepth ≤ m.depth then
        .error ⟨.stackOverflow m.config.maxCallDepth, none⟩ m
      else Eval.inCall (host.apply f args) m := by
  rw [call, callWithin.eq_def]
  simp only
  split
  · rfl
  cases h : m.remaining with
  | zero =>
    have hle : m.config.maxCallDepth ≤ m.depth := Nat.sub_eq_zero_iff_le.1 h
    simp only [hle, if_true]
  | succ budget =>
    have hlt : ¬m.config.maxCallDepth ≤ m.depth := by
      unfold Machine.remaining at h
      omega
    simp only [hlt, if_false]
    cases f with
    | native => rfl
    | closure id d k =>
      -- the calls of the body are made with one call less to become active
      have hb : budget = m.context.deeper.remaining := by
        unfold Machine.remaining at h
        simp only [Context.remaining, Context.deeper, Machine.context]
        omega
      have hd : d.invoke (host.callWithin budget) k args m.deeper =
          d.invoke host.call k args m.deeper := by
        rw [hb]
        exact eq_of_respects (m := m.deeper)
          (respects_invoke (i := m.scope) (j := m.scope)
            (respectsCalls_callWithin_call host m.context.deeper) d trivial fun _ _ => trivial)
      simp only [Eval.inCall, hd, apply]

/-! ## Restoration -/

/-- Statement lists, statements, expressions and calls leave the context of the machine as
they found it, with a value as with an error. -/
theorem context_restored :
    (∀ ss m, ((host.execAll ss).final m).context = m.context) ∧
      (∀ s m, ((host.exec s).final m).context = m.context) ∧
      (∀ e m, ((host.eval e).final m).context = m.context) ∧
      ∀ f args m, ((host.call f args).final m).context = m.context := by
  have hcall := fun c => respectsCalls_call (S := Simulation.same) host c
  refine ⟨fun ss m => ?_, fun s m => ?_, fun e m => ?_, fun f args m => ?_⟩
  · rw [execAll_eq]
    have h := respects_execAll (hcall m.context) ss (w := m.store) (i := m.scope) trivial
    exact (Invariant.kept h trivial).2.2.1
  · rw [exec_eq]
    have h := respects_exec (hcall m.context) s (w := m.store) (i := m.scope) trivial
    exact (Invariant.kept h trivial).2.2.1
  · rw [eval_eq]
    have h := respects_eval (hcall m.context) e (w := m.store) (i := m.scope) trivial
    exact (Invariant.kept h trivial).2.2.1
  · have h : Simulation.same.Respects m.store m.context m.context Simulation.same.ok
        (host.call f args) (host.call f args) :=
      hcall m.context (i := m.scope) trivial fun _ _ => trivial
    exact (Invariant.kept h trivial).2.2.1

end Host

end Scoped
