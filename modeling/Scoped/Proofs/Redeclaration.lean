import Scoped.Proofs.Coupling

/-!
# The two policies

Where no name may be declared again, a run does what it would do where names may, up to the
first declaration that is refused. `Store.withPolicy` gives all scopes one policy, and
`Coupling.relaxed` has the two runs go in lockstep : a run in any store, and the run in that
store with `allow` in all of its scopes. If the first one is in such a store already, nothing
can stop it, and so no declaration is refused in it.
-/

namespace Scoped

namespace Store

variable {s : Store} {p : Redeclaration}

/-- The store with one policy in all of its scopes. -/
def withPolicy (s : Store) (p : Redeclaration) : Store :=
  { s with scopes := s.scopes.map fun c => { c with policy := p } }

theorem getElem?_withPolicy (s : Store) (p : Redeclaration) (i : ScopeId) :
    (s.withPolicy p).scopes[i]? = s.scopes[i]?.map fun c => { c with policy := p } := by
  simp only [withPolicy, Array.getElem?_map]

@[simp]
theorem size_withPolicy (s : Store) (p : Redeclaration) :
    (s.withPolicy p).scopes.size = s.scopes.size := by
  simp [withPolicy]

@[simp]
theorem record?_withPolicy (s : Store) (p : Redeclaration) (i : ScopeId) :
    (s.withPolicy p).record? i = s.record? i := by
  rw [record?, getElem?_withPolicy, Option.map_map]
  rfl

@[simp]
theorem outer?_withPolicy (s : Store) (p : Redeclaration) (i : ScopeId) :
    (s.withPolicy p).outer? i = s.outer? i := by
  rw [outer?, getElem?_withPolicy, Option.bind_map]
  rfl

/-- All scopes allow what a scope that does not exist would allow. -/
@[simp]
theorem policy_withPolicy_allow (s : Store) (i : ScopeId) :
    (s.withPolicy .allow).policy i = .allow := by
  rw [policy, getElem?_withPolicy]
  cases s.scopes[i]? <;> rfl

@[simp]
theorem resolve?_withPolicy (s : Store) (p : Redeclaration) (i : ScopeId) (x : String) :
    (s.withPolicy p).resolve? i x = s.resolve? i x :=
  resolve?_congr i (fun j _ => outer?_withPolicy s p j) fun j _ => by simp [binds]

@[simp]
theorem get?_withPolicy (s : Store) (p : Redeclaration) (i : ScopeId) (x : String) :
    (s.withPolicy p).get? i x = s.get? i x := by
  simp [get?_eq, value?]

@[simp]
theorem withPolicy_withPolicy (s : Store) (p q : Redeclaration) :
    (s.withPolicy p).withPolicy q = s.withPolicy q := by
  simp [withPolicy]

theorem withPolicy_bind (s : Store) (p : Redeclaration) (i : ScopeId) (x : String) (v : Value) :
    (s.bind i x v).withPolicy p = (s.withPolicy p).bind i x v := by
  refine congrArg (Store.mk · s.nextIdentity) (Array.ext_getElem? fun j => ?_)
  simp only [bind, withPolicy, Array.getElem?_map, Array.getElem?_modify]
  split <;> cases s.scopes[j]? <;> rfl

/-- Nothing is refused in scopes that allow declarations. -/
theorem not_refuses_of_allow (h : s = s.withPolicy .allow) (i : ScopeId) (x : String) :
    s.refuses i x = false := by
  rw [refuses, h, policy_withPolicy_allow]
  rfl

/-- Scopes that are opened in such a store allow them too. -/
theorem withPolicy_openInside (s : Store) (i : ScopeId) (k : ScopeKind) :
    (s.openInside i k).withPolicy .allow = (s.withPolicy .allow).openInside i k := by
  rw [openInside, openInside, policy_withPolicy_allow]
  simp [push, withPolicy]

end Store

/-- The run failed because a name was refused. -/
def Run.Redeclares (r : Run) : Prop := ∃ e, r.result = .error e ∧ e.cause.IsRedeclaration

/-- Two runs of one program, the second one where all scopes allow declarations. If the first one
is not `stoppable`, that is so in its store as well. -/
def Coupling.relaxed (left right : Config) (hlimit : left.maxCallDepth = right.maxCallDepth)
    (stoppable : Prop) : Coupling where
  toPlacement := .same fun _ _ => True
  left := left
  right := right
  stops c := stoppable ∧ c.IsRedeclaration
  rel s t := t = s.withPolicy .allow ∧ (stoppable ∨ t = s)
  limit_le := hlimit.le
  limit := .inl hlimit
  get? := by
    rintro s _ ⟨rfl, -⟩ i x
    rw [Store.get?_withPolicy]
    exact s.allowed_everywhere.get? i x
  resolve? := by
    rintro s _ ⟨rfl, -⟩ i x
    exact s.resolve?_withPolicy .allow i x
  bind := by
    rintro s _ v w ⟨rfl, hstop⟩ hvw i x
    obtain rfl := Value.eq_of_alike_same hvw
    rw [← Store.withPolicy_bind]
    exact ⟨rfl, hstop.imp_right fun h => by rw [Store.withPolicy_bind, h]⟩
  refuses_of := by
    rintro s _ i x ⟨rfl, -⟩ h
    rw [Store.not_refuses_of_allow (Store.withPolicy_withPolicy ..).symm] at h
    cases h
  refuses := by
    rintro s _ i x ⟨rfl, hstop | heq⟩ h
    · exact .inr ⟨hstop, x, rfl⟩
    · rw [Store.not_refuses_of_allow heq.symm] at h
      cases h
  refusing := False
  refusing_of := by
    rintro s _ i x ⟨rfl, -⟩ h
    rw [Store.not_refuses_of_allow (Store.withPolicy_withPolicy ..).symm] at h
    cases h
  nextIdentity := by
    rintro s _ ⟨rfl, -⟩
    rfl
  takeIdentity := by
    rintro s _ ⟨rfl, hstop⟩
    exact ⟨rfl, hstop.imp_right (congrArg Store.takeIdentity)⟩
  nextScope := by
    rintro s _ ⟨rfl, -⟩
    exact s.size_withPolicy .allow
  openInside := by
    rintro s _ ⟨rfl, hstop⟩ i k
    rw [← Store.withPolicy_openInside]
    exact ⟨rfl, hstop.imp_right fun h => by rw [Store.withPolicy_openInside, h]⟩

namespace Coupling

variable {left right : Config} {s : Store}

/-- A run, and the run where all scopes allow declarations : the first one has not been refused a
name and the second one is the same up to policies, or it has been and the second one began with
what it printed. -/
theorem relaxed_execute (p : Program) (host : Host)
    (hlimit : left.maxCallDepth = right.maxCallDepth) (stoppable : Prop)
    (hs : stoppable ∨ s.withPolicy .allow = s) (i : ScopeId) (printed : Array String) :
    let run := p.execute host left s i printed
    let run' := p.execute host right (s.withPolicy .allow) i printed
    (¬run.Redeclares ∧ run' = { run with store := run.store.withPolicy .allow }) ∨
      stoppable ∧ run.Redeclares ∧ ∃ more, run'.printed = run.printed ++ more := by
  intro run run'
  have hresults : (relaxed left right hlimit stoppable).Results run run' :=
    results_execute (C := relaxed left right hlimit stoppable) p.alike_self_everywhere ⟨rfl, hs⟩
      host i printed
  generalize run = r at hresults ⊢
  generalize run' = r' at hresults ⊢
  cases hresults with
  | ok hvalues hstores =>
    obtain ⟨rfl, -⟩ := hstores
    obtain rfl := Value.eq_of_rel_same hvalues
    refine .inl ⟨?_, rfl⟩
    rintro ⟨e, ⟨⟩, -⟩
  | error herrors hstores =>
    obtain ⟨rfl, -⟩ := hstores
    obtain ⟨⟨rfl, -⟩, hrefusing⟩ := herrors
    refine .inl ⟨?_, rfl⟩
    rintro ⟨e, ⟨⟩, hc⟩
    exact hrefusing hc
  | stopped hstops hmore => exact .inr ⟨hstops.1, ⟨_, rfl, hstops.2⟩, _, hmore⟩

end Coupling

/-- To forbid declaring a name again only takes runs away. In stores that are equal but for the
policy of all scopes, a run that is not refused a name where that is forbidden gives the same
result, the same lines and the same store but for the policies where it is allowed; one that is
refused a name has printed lines that the other run begins with. Where it is allowed, no run is
refused a name. -/
theorem Program.execute_forbid (p : Program) (host : Host) (config config' : Config)
    (hlimit : config.maxCallDepth = config'.maxCallDepth) (s : Store) (i : ScopeId)
    (printed : Array String) :
    let run := p.execute host config (s.withPolicy .forbid) i printed
    let run' := p.execute host config' (s.withPolicy .allow) i printed
    (¬run.Redeclares → run'.result = run.result ∧ run'.printed = run.printed ∧
        run'.store = run.store.withPolicy .allow) ∧
      (run.Redeclares → ∃ more, run'.printed = run.printed ++ more) ∧
      ¬run'.Redeclares := by
  intro run run'
  have htwo := Coupling.relaxed_execute (s := s.withPolicy .forbid) p host hlimit True
    (.inl trivial) i printed
  -- nothing can stop a run where all scopes allow declarations already
  have hone := Coupling.relaxed_execute (s := s.withPolicy .allow) p host
    (Eq.refl config'.maxCallDepth) False (.inr (by simp)) i printed
  simp only [Store.withPolicy_withPolicy, true_and, false_and, or_false] at htwo hone
  refine ⟨fun hnot => ?_, fun hredeclares => ?_, hone.1⟩
  · obtain ⟨-, heq⟩ := htwo.resolve_right fun h => hnot h.1
    simp only [run', heq]
    exact ⟨rfl, rfl, rfl⟩
  · exact (htwo.resolve_left fun h => h.1 hredeclares).2

/-- `let x; print "a"; let x; print "b";` -/
def Program.declaresTwice : Program :=
  let bind (start : Nat) : Stmt :=
    .bind ⟨start, start + 6⟩ ⟨"x", ⟨start + 4, start + 5⟩⟩ none
  let print (start : Nat) (text : String) : Stmt :=
    .print ⟨start, start + 10⟩ (.literal ⟨start + 6, start + 9⟩ (.string text))
  ⟨⟨0, 35⟩, [bind 0, print 7 "a", bind 18, print 25 "b"]⟩

/-- The second declaration is refused or not, and only then is the second line printed. -/
theorem Program.execute_forbid_declaresTwice :
    let s := Store.empty.openRoot .allow
    let run := Program.declaresTwice.execute ⟨0⟩ ⟨.forbid, 1⟩ (s.withPolicy .forbid) 0 #[]
    let run' := Program.declaresTwice.execute ⟨0⟩ ⟨.allow, 1⟩ (s.withPolicy .allow) 0 #[]
    run.Redeclares ∧ run.printed = #["a"] ∧ run'.printed = #["a", "b"] ∧
      (∃ more, run'.printed = run.printed ++ more) ∧ ¬run'.Redeclares := by
  intro s run run'
  have hresult : (Program.declaresTwice.execute ⟨0⟩ ⟨.forbid, 1⟩
      ((Store.empty.openRoot .allow).withPolicy .forbid) 0 #[]).result =
        .error ⟨.redeclaration "x", some ⟨22, 23⟩⟩ := by cbv
  have hprinted : (Program.declaresTwice.execute ⟨0⟩ ⟨.forbid, 1⟩
      ((Store.empty.openRoot .allow).withPolicy .forbid) 0 #[]).printed = #["a"] := by cbv
  have hprinted' : (Program.declaresTwice.execute ⟨0⟩ ⟨.allow, 1⟩
      ((Store.empty.openRoot .allow).withPolicy .allow) 0 #[]).printed = #["a", "b"] := by cbv
  have hredeclares : run.Redeclares := ⟨_, hresult, "x", rfl⟩
  obtain ⟨-, hmore, hnot⟩ := Program.execute_forbid .declaresTwice ⟨0⟩ ⟨.forbid, 1⟩
    ⟨.allow, 1⟩ rfl s 0 #[]
  exact ⟨hredeclares, hprinted, hprinted', hmore hredeclares, hnot⟩

end Scoped
