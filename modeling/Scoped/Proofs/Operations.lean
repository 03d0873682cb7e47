import Scoped.Proofs.Declarations
import Scoped.Proofs.WellFormed

/-!
# Everything that happens to a store

A host opens scopes, binds and assigns names and runs programs, in any order. `Operation` lists
what it can do, and `Store.Becomes` is any sequence of these.

Each operation keeps a store lawful : scopes are inside older ones and have their policy, and
closures capture scopes that exist (`Operation.lawful_apply`). What a scope was opened with
never changes (`Operation.grows_apply`). So links outward lead from every scope to a root, and
`Store.Climbs` is the walk along them, with nothing to bound it.
-/

namespace Scoped

namespace Store

variable {s t u : Store} {i o : ScopeId} {x : String} {v : Value}

/-! ## Lawful stores -/

/-- A well-formed store in which scopes have the policy of the scope around them. -/
structure Lawful (s : Store) : Prop extends s.WellFormed where
  policy_eq : ∀ {i o}, s.outer? i = some o → s.policy i = s.policy o

theorem Lawful.empty : Store.empty.Lawful where
  toWellFormed := .empty
  policy_eq ho := by simp [Store.outer?, Store.empty] at ho

theorem Lawful.openRoot (h : s.Lawful) (p : Redeclaration) : (s.openRoot p).Lawful where
  toWellFormed := h.toWellFormed.openRoot p
  policy_eq {j o} ho := by
    rw [outer?_openRoot] at ho
    split at ho
    · cases ho
    · next hj =>
      have hlt : o < s.scopes.size := (h.outer_lt ho).trans (lt_size_of_outer? ho)
      rw [policy_openRoot, policy_openRoot, if_neg hj, if_neg hlt.ne, h.policy_eq ho]

theorem Lawful.openInside (h : s.Lawful) (hi : i < s.scopes.size) (k : ScopeKind) :
    (s.openInside i k).Lawful where
  toWellFormed := h.toWellFormed.openInside hi k
  policy_eq {j o} ho := by
    rw [outer?_openInside] at ho
    rw [policy_openInside, policy_openInside]
    split at ho
    · next hj =>
      cases ho
      rw [if_pos hj, if_neg hi.ne]
    · next hj =>
      have hlt : o < s.scopes.size := (h.outer_lt ho).trans (lt_size_of_outer? ho)
      rw [if_neg hj, if_neg hlt.ne, h.policy_eq ho]

theorem Lawful.bind (h : s.Lawful) (hv : s.Holds v) : (s.bind i x v).Lawful where
  toWellFormed := h.toWellFormed.bind hv
  policy_eq ho := by
    rw [policy_bind, policy_bind]
    exact h.policy_eq (by simpa using ho)

theorem Lawful.takeIdentity (h : s.Lawful) : s.takeIdentity.Lawful where
  outer_lt := h.outer_lt
  holds := h.holds
  policy_eq := h.policy_eq

end Store

/-- Runs keep stores lawful. -/
def Invariant.lawful : Invariant where
  inv := Store.Lawful
  ok := Store.Holds
  seen s i := i < s.scopes.size
  home s i := i < s.scopes.size
  ok_grows := wellFormed.ok_grows
  seen_grows := wellFormed.seen_grows
  home_grows := wellFormed.home_grows
  seen_of_home h := h
  ok_data := wellFormed.ok_data
  seen_captured := wellFormed.seen_captured
  ok_get? h _ hv := h.holds_get? hv
  assign h _ _ hv := h.bind hv
  declare h _ hv := h.bind hv
  takeIdentity h := h.takeIdentity
  ok_closure h := wellFormed.ok_closure h.toWellFormed
  openInside h hi := h.openInside hi _
  home_openInside h := wellFormed.home_openInside h.toWellFormed

/-- The value of a run is one that its statements return. -/
theorem Program.outcome_of_execute {p : Program} {host : Host} {config : Config} {s : Store}
    {i : ScopeId} {printed : Array String} {v : Value}
    (h : (p.execute host config s i printed).result = .ok (some v)) :
    (Stmt.execAll host.call p.body).outcome ⟨s, i, config, 0, printed⟩ = .ok (.returned v) := by
  simp only [execute, Run.of, Host.execAll_eq, Functor.map, EStateM.map] at h
  unfold Eval.outcome
  cases hr : Stmt.execAll host.call p.body ⟨s, i, config, 0, printed⟩ with
  | error e m => simp [hr] at h
  | ok c m =>
    cases c with
    | normal => simp [hr, Completion.value?] at h
    | returned w =>
      obtain rfl : w = v := by simpa [hr, Completion.value?] using h
      rfl

/-- A run of a program keeps the store lawful, and returns a value that the store holds. -/
theorem Program.lawful_execute (p : Program) (host : Host) (config : Config) {s : Store}
    (hs : s.Lawful) {i : ScopeId} (hi : i < s.scopes.size) (printed : Array String) :
    let run := p.execute host config s i printed
    run.store.Lawful ∧ ∀ v, run.result = .ok (some v) → run.store.Holds v := by
  intro run
  have hrespects := Simulation.respects_execAll (S := Invariant.lawful.simulation)
    (Simulation.respectsCalls_call host ⟨i, config, 0⟩) p.body (w := s) (i := i) hi
  obtain ⟨hlawful, -, -, hvalue⟩ :=
    Invariant.kept (m := ⟨s, i, config, 0, printed⟩) hrespects hs
  have hstore : run.store =
      ((Stmt.execAll host.call p.body).final ⟨s, i, config, 0, printed⟩).store := by
    rw [← host.execAll_eq, ← Eval.final_map Completion.value?, ← Run.store_of]
    rfl
  rw [hstore]
  exact ⟨hlawful, fun v hv => hvalue _ (outcome_of_execute hv) v rfl⟩

/-! ## Operations -/

/-- What a host can do to a store. -/
inductive Operation where
  | openRoot (policy : Redeclaration)
  | openInside (i : ScopeId) (kind : ScopeKind)
  | define (i : ScopeId) (x : String) (v : Value)
  /-- Binding a name whatever the policy of the scope. -/
  | bind (i : ScopeId) (x : String) (v : Value)
  | assign (i : ScopeId) (x : String) (v : Value)
  /-- Taking an identity for a function value. -/
  | takeIdentity
  | execute (p : Program) (host : Host) (config : Config) (i : ScopeId) (printed : Array String)

namespace Operation

/-- The store after the operation. One that fails to bind a name leaves it as it was. -/
def apply (s : Store) : Operation → Store
  | openRoot policy => s.openRoot policy
  | openInside i kind => s.openInside i kind
  | define i x v => (s.define i x v).toOption.getD s
  | bind i x v => s.bind i x v
  | assign i x v => (s.assign i x v).toOption.getD s
  | takeIdentity => s.takeIdentity
  | execute p host config i printed => (p.execute host config s i printed).store

/-- The operation is about scopes that exist, and values that capture no others. -/
def Admissible (s : Store) : Operation → Prop
  | openRoot _ | takeIdentity => True
  | openInside i _ | execute _ _ _ i _ => i < s.scopes.size
  | define i _ v | bind i _ v | assign i _ v => i < s.scopes.size ∧ s.Holds v

variable {s : Store} {i : ScopeId} {x : String} {v : Value}

/-- Declaring a name binds it in the scope, or leaves the store. -/
theorem apply_define (s : Store) (i : ScopeId) (x : String) (v : Value) :
    (define i x v).apply s = s.bind i x v ∨ (define i x v).apply s = s := by
  simp only [apply, Store.define]
  split
  · exact .inr rfl
  · exact .inl rfl

/-- Assigning to a name binds it in a scope, or leaves the store. -/
theorem apply_assign (s : Store) (i : ScopeId) (x : String) (v : Value) :
    (∃ j, (assign i x v).apply s = s.bind j x v) ∨ (assign i x v).apply s = s := by
  simp only [apply, Store.assign_eq]
  cases s.resolve? i x with
  | some j => exact .inl ⟨j, rfl⟩
  | none => exact .inr rfl

/-- Every operation keeps stores lawful. -/
theorem lawful_apply (hs : s.Lawful) : ∀ {op : Operation}, op.Admissible s → (op.apply s).Lawful
  | openRoot p, _ => hs.openRoot p
  | openInside _ k, hi => hs.openInside hi k
  | define i x v, h => by
    rcases apply_define s i x v with heq | heq <;> rw [heq]
    · exact hs.bind h.2
    · exact hs
  | bind .., h => hs.bind h.2
  | assign i x v, h => by
    rcases apply_assign s i x v with ⟨j, heq⟩ | heq <;> rw [heq]
    · exact hs.bind h.2
    · exact hs
  | takeIdentity, _ => hs.takeIdentity
  | execute p host config _ printed, hi => (p.lawful_execute host config hs hi printed).1

/-- No operation takes a scope away, or changes what it was opened with. -/
theorem grows_apply (s : Store) : ∀ op : Operation, s.Grows (op.apply s)
  | openRoot p => s.grows_openRoot p
  | openInside i k => s.grows_openInside i k
  | define i x v => by
    rcases apply_define s i x v with heq | heq <;> rw [heq]
    · exact s.grows_bind i x v
    · exact .refl s
  | bind i x v => s.grows_bind i x v
  | assign i x v => by
    rcases apply_assign s i x v with ⟨j, heq⟩ | heq <;> rw [heq]
    · exact s.grows_bind j x v
    · exact .refl s
  | takeIdentity => s.grows_takeIdentity
  | execute p host config i printed => (p.declares_execute host config s i printed).1

end Operation

namespace Store

variable {s t u : Store} {i o root : ScopeId} {n : Nat}

/-- The stores that operations make of a store, one after the other. -/
inductive Becomes (s : Store) : Store → Prop
  | start : Becomes s s
  | step {t : Store} (op : Operation) : Becomes s t → op.Admissible t → Becomes s (op.apply t)

namespace Becomes

theorem trans (h : s.Becomes t) (h' : t.Becomes u) : s.Becomes u := by
  induction h' with
  | start => exact h
  | step op _ hop ih => exact .step op ih hop

theorem lawful (h : s.Becomes t) (hs : s.Lawful) : t.Lawful := by
  induction h with
  | start => exact hs
  | step _ _ hop ih => exact Operation.lawful_apply ih hop

theorem grows (h : s.Becomes t) : s.Grows t := by
  induction h with
  | start => exact .refl s
  | step op _ _ ih => exact ih.trans (op.grows_apply _)

end Becomes

/-! ## The way to a root -/

/-- Walking outward from a scope to a root, with the number of scopes around it. -/
inductive Climbs (s : Store) : ScopeId → Nat → ScopeId → Prop
  | root {i : ScopeId} : s.outer? i = none → Climbs s i 0 i
  | outward {i o root : ScopeId} {n : Nat} : s.outer? i = some o → Climbs s o n root →
    Climbs s i (n + 1) root

theorem depth_root (ho : s.outer? i = none) : s.depth i = 0 := by
  rw [depth, chain, ho]
  rfl

theorem chain_ne_nil (s : Store) (i : ScopeId) : s.chain i ≠ [] := by
  rw [chain]
  cases s.outer? i with
  | none => simp
  | some o =>
    simp only
    split <;> simp

theorem depth_outward (ho : s.outer? i = some o) (hlt : o < i) : s.depth i = s.depth o + 1 := by
  have hpos : 0 < (s.chain o).length := List.length_pos_iff.2 (s.chain_ne_nil o)
  rw [depth, chain, ho]
  simp only [hlt, if_true, List.length_cons, depth]
  omega

/-- Every walk outward ends, at one root and after as many scopes as `depth` says. -/
theorem exists_root (h : s.WellFormed) (i : ScopeId) :
    ∃ root ≤ i, s.outer? root = none ∧ ∀ n r, s.Climbs i n r ↔ n = s.depth i ∧ r = root := by
  induction i using Nat.strong_induction_on with
  | _ i ih =>
    cases ho : s.outer? i with
    | none =>
      refine ⟨i, le_rfl, ho, fun n r => ⟨fun hc => ?_, ?_⟩⟩
      · cases hc with
        | root => exact ⟨(depth_root ho).symm, rfl⟩
        | outward ho' _ => cases ho.symm.trans ho'
      · rintro ⟨rfl, rfl⟩
        rw [depth_root ho]
        exact .root ho
    | some o =>
      have hlt : o < i := h.outer_lt ho
      obtain ⟨root, hle, hroot, hiff⟩ := ih o hlt
      refine ⟨root, hle.trans hlt.le, hroot, fun n r => ⟨fun hc => ?_, ?_⟩⟩
      · cases hc with
        | root ho' => cases ho.symm.trans ho'
        | outward ho' hc =>
          obtain rfl : o = _ := Option.some.inj (ho.symm.trans ho')
          obtain ⟨rfl, rfl⟩ := (hiff _ _).1 hc
          exact ⟨(depth_outward ho hlt).symm, rfl⟩
      · rintro ⟨rfl, rfl⟩
        rw [depth_outward ho hlt]
        exact .outward ho ((hiff _ _).2 ⟨rfl, rfl⟩)

/-- Whatever was done to a store, from one without scopes on. A scope is inside an older one, which
has the same policy and is one scope less deep. What it was opened with stays, whatever is
done next. Closures capture scopes that exist, those of bindings as well as those that a run
returns. From every scope a walk outward ends at a root, after as many scopes as its depth, and
the walk for a name ends at the scope that the name refers to, or at a root if there is none. -/
theorem scope_invariant {s t : Store} (hs : Store.empty.Becomes s) (ht : s.Becomes t) :
    (∀ i o, s.outer? i = some o →
      o < i ∧ s.policy i = s.policy o ∧ s.depth i = s.depth o + 1) ∧
    (∀ i < s.scopes.size, i < t.scopes.size ∧ t.outer? i = s.outer? i ∧
      t.policy i = s.policy i ∧ t.function? i = s.function? i) ∧
    (∀ i x v k, s.value? i x = some v → v.captured? = some k → k < s.scopes.size) ∧
    (∀ (p : Program) (host : Host) (config : Config) (i : ScopeId) (printed : Array String) v k,
      i < s.scopes.size → (p.execute host config s i printed).result = .ok (some v) →
        v.captured? = some k → k < (p.execute host config s i printed).store.scopes.size) ∧
    (∀ i < s.scopes.size, ∃ root < s.scopes.size, s.outer? root = none ∧
      ∀ n r, s.Climbs i n r ↔ n = s.depth i ∧ r = root) ∧
    ∀ i x r, s.Walks x i r ↔ r = s.resolve? i x := by
  have hlawful : s.Lawful := hs.lawful .empty
  have hgrows : s.Grows t := ht.grows
  refine ⟨fun i o ho => ?_, fun i hi => ?_, fun i x v k hv hk => hlawful.holds hv k hk,
    fun p host config i printed v k hi hv hk => ?_, fun i hi => ?_,
    fun i x r => walks_iff hlawful.toWellFormed⟩
  · have hlt : o < i := hlawful.outer_lt ho
    exact ⟨hlt, hlawful.policy_eq ho, depth_outward ho hlt⟩
  · exact ⟨hi.trans_le hgrows.size_le, hgrows.outer? hi, hgrows.policy hi, hgrows.function? hi⟩
  · exact (p.lawful_execute host config hlawful hi printed).2 v hv k hk
  · obtain ⟨root, hle, hroot, hiff⟩ := exists_root hlawful.toWellFormed i
    exact ⟨root, hle.trans_lt hi, hroot, hiff⟩

theorem becomes_register (hi : i < s.scopes.size) : s.Becomes (s.register i) := by
  unfold register
  generalize Native.all = ns
  induction ns generalizing s with
  | nil => exact .start
  | cons f ns ih =>
    have hbind : s.Becomes (s.takeIdentity.bind i f.name (.function (.native s.nextIdentity f))) :=
      .step (.bind i f.name (.function (.native s.nextIdentity f)))
        (.step .takeIdentity .start trivial) ⟨hi, by rintro j ⟨⟩⟩
    exact hbind.trans (ih (by simpa using hi))

end Store

/-- The store of a new interpreter was made by operations. -/
theorem Interpreter.becomes_new (config : Config) :
    Store.empty.Becomes (Interpreter.new config).store := by
  have hroot : Store.empty.Becomes (Store.empty.openRoot config.redeclaration) :=
    .step (.openRoot config.redeclaration) .start trivial
  have hi : 0 < (Store.empty.openRoot config.redeclaration).scopes.size := Nat.zero_lt_one
  have hsize := (Store.becomes_register hi).grows.size_le
  exact .step (.openInside 0 .block) (hroot.trans (Store.becomes_register hi)) (hi.trans_le hsize)

/-- `let x; fn f() { } fn x() { }` -/
def Program.bindsClosures : Program :=
  ⟨⟨0, 28⟩, [
    .bind ⟨0, 6⟩ ⟨"x", ⟨4, 5⟩⟩ none,
    .function (.mk ⟨7, 17⟩ (some ⟨"f", ⟨10, 11⟩⟩) [] ⟨14, 17⟩ []),
    .function (.mk ⟨18, 28⟩ (some ⟨"x", ⟨21, 22⟩⟩) [] ⟨25, 28⟩ [])]⟩

/-- The globals of an interpreter before and after a run that is refused a name : they stay inside
the prelude, and the closure that the run has bound captures them. -/
theorem Store.scope_invariant_bindsClosures :
    let i := Interpreter.new ⟨.forbid, 1⟩
    let run := i.execute 0 .bindsClosures #[]
    let f : Value := .function (.closure 4 (.mk ⟨7, 17⟩ (some ⟨"f", ⟨10, 11⟩⟩) [] ⟨14, 17⟩ []) 1)
    run.result = .error ⟨.redeclaration "x", some ⟨21, 22⟩⟩ ∧
      run.store.value? 1 "f" = some f ∧ 1 < run.store.scopes.size ∧
      run.store.outer? 1 = some 0 ∧ run.store.policy 1 = run.store.policy 0 ∧
      run.store.depth 1 = run.store.depth 0 + 1 ∧
      ∃ root < run.store.scopes.size, run.store.outer? root = none ∧
        ∀ n r, run.store.Climbs 1 n r ↔ n = run.store.depth 1 ∧ r = root := by
  intro i run f
  have hnew : Store.empty.Becomes i.store := Interpreter.becomes_new ⟨.forbid, 1⟩
  have hlt : 1 < i.store.scopes.size := by cbv
  have hrun : i.store.Becomes run.store :=
    .step (.execute .bindsClosures ⟨0⟩ ⟨.forbid, 1⟩ 1 #[]) .start hlt
  have hresult : ((Interpreter.new ⟨.forbid, 1⟩).execute 0 .bindsClosures #[]).result =
      .error ⟨.redeclaration "x", some ⟨21, 22⟩⟩ := by cbv
  have hvalue : ((Interpreter.new ⟨.forbid, 1⟩).execute 0 .bindsClosures #[]).store.value? 1 "f" =
      some (.function
        (.closure 4 (.mk ⟨7, 17⟩ (some ⟨"f", ⟨10, 11⟩⟩) [] ⟨14, 17⟩ []) 1)) := by cbv
  have houter : i.store.outer? 1 = some 0 := by cbv
  obtain ⟨-, hstays, -⟩ := Store.scope_invariant hnew hrun
  obtain ⟨houters, -, hcaptures, -, hroots, -⟩ := Store.scope_invariant (hnew.trans hrun) .start
  have houter' : run.store.outer? 1 = some 0 := (hstays 1 hlt).2.1.trans houter
  obtain ⟨-, hpolicy, hdepth⟩ := houters 1 0 houter'
  have hsize : 1 < run.store.scopes.size := hcaptures 1 "f" f 1 hvalue rfl
  exact ⟨hresult, hvalue, hsize, houter', hpolicy, hdepth, hroots 1 hsize⟩

end Scoped
