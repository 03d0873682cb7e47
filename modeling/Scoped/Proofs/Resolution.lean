import Scoped.Proofs.Operations

/-!
# What names refer to

Scopes form trees, and one scope is around many others, so that one change is seen from many
scopes and hidden from others by names that stand nearer. `Store.Outward` counts the links from
a scope outward. A scope is in sight of a name from another one (`Store.Sees`) if it is around it
and no scope before it binds the name; if it binds the name itself, the name refers to it
(`Store.Refers`).

Binding a name in a scope changes the lookups of that name from where the scope is in
sight, and no others (`Store.updates_bind`). Declaring binds the name in the scope itself, and
assigning in the one that the name refers to. So the two have their meaning from one lemma :
`Store.environment_meaning`.
-/

namespace Scoped

namespace Store

variable {s t : Store} {i j k o : ScopeId} {n m : Nat} {x y : String} {u v : Value}

/-! ## In sight -/

/-- The scope that is so many links outward from a scope. -/
inductive Outward (s : Store) : ScopeId → Nat → ScopeId → Prop
  | here {i : ScopeId} : Outward s i 0 i
  | link {i o j : ScopeId} {n : Nat} : s.outer? i = some o → Outward s o n j →
    Outward s i (n + 1) j

/-- From `i` the scope `j` is outward, and none of the scopes before it binds the name. -/
def Sees (s : Store) (i : ScopeId) (x : String) (j : ScopeId) : Prop :=
  ∃ n, s.Outward i n j ∧ ∀ m < n, ∀ k, s.Outward i m k → s.binds k x = false

/-- From `i` the name refers to `j` : the first scope outward that binds it. -/
def Refers (s : Store) (i : ScopeId) (x : String) (j : ScopeId) : Prop :=
  s.Sees i x j ∧ s.binds j x = true

theorem sees_self (s : Store) (i : ScopeId) (x : String) : s.Sees i x i :=
  ⟨0, .here, fun _ hm => absurd hm (Nat.not_lt_zero _)⟩

/-- A scope that binds the name hides those around it. -/
theorem eq_of_sees_of_binds (h : s.Sees i x j) (hb : s.binds i x = true) : j = i := by
  obtain ⟨n, hj, hnearer⟩ := h
  cases hj with
  | here => rfl
  | link =>
    have hfree := hnearer 0 (Nat.succ_pos _) i .here
    exact absurd (hb.symm.trans hfree) Bool.noConfusion

theorem sees_outward (hb : s.binds i x = false) (ho : s.outer? i = some o) (hne : j ≠ i) :
    s.Sees i x j ↔ s.Sees o x j := by
  constructor
  · rintro ⟨n, hj, hnearer⟩
    cases hj with
    | here => exact absurd rfl hne
    | @link _ o' _ n ho' hj =>
      obtain rfl : o = o' := Option.some.inj (ho.symm.trans ho')
      exact ⟨n, hj, fun m hm k hk => hnearer (m + 1) (Nat.succ_lt_succ hm) k (.link ho hk)⟩
  · rintro ⟨n, hj, hnearer⟩
    refine ⟨n + 1, .link ho hj, fun m hm k hk => ?_⟩
    cases hk with
    | here => exact hb
    | @link _ o' _ m ho' hk =>
      obtain rfl : o = o' := Option.some.inj (ho.symm.trans ho')
      exact hnearer m (Nat.lt_of_succ_lt_succ hm) k hk

theorem sees_root (ho : s.outer? i = none) (h : s.Sees i x j) : j = i := by
  obtain ⟨n, hj, -⟩ := h
  cases hj with
  | here => rfl
  | link ho' => cases ho.symm.trans ho'

/-- The scope that a walk for the name ends at is the one that the name refers to. -/
theorem refers_iff (hs : s.WellFormed) : s.Refers i x j ↔ s.resolve? i x = some j := by
  induction i using Nat.strong_induction_on with
  | _ i ih =>
    cases hb : s.binds i x with
    | true =>
      rw [resolve?_self hb]
      constructor
      · rintro ⟨hsees, -⟩
        rw [eq_of_sees_of_binds hsees hb]
      · intro h
        obtain rfl : i = j := Option.some.inj h
        exact ⟨s.sees_self i x, hb⟩
    | false =>
      -- a scope that does not bind the name is not the one
      have hne : s.binds j x = true → j ≠ i := by
        rintro hj rfl
        cases hj.symm.trans hb
      cases ho : s.outer? i with
      | none =>
        rw [resolve?_root hb ho]
        constructor
        · rintro ⟨hsees, hj⟩
          exact absurd (sees_root ho hsees) (hne hj)
        · intro h
          cases h
      | some o =>
        rw [resolve?_outward hb ho (hs.outer_lt ho), ← ih o (hs.outer_lt ho)]
        constructor
        · rintro ⟨hsees, hj⟩
          exact ⟨(sees_outward hb ho (hne hj)).1 hsees, hj⟩
        · rintro ⟨hsees, hj⟩
          exact ⟨(sees_outward hb ho (hne hj)).2 hsees, hj⟩

/-! ## Binding a name -/

/-- A store that differs from another one in the lookups of a name from some scopes, from where
it has this value. -/
def Updates (s t : Store) (x : String) (v : Value) (P : ScopeId → Prop) : Prop :=
  ∀ i y, (y = x ∧ P i → t.get i y = .ok v) ∧ (¬(y = x ∧ P i) → t.get i y = s.get i y)

theorem get_congr (h : t.get? i y = s.get? i y) : t.get i y = s.get i y := by
  rw [get, get, h]

theorem get_eq_ok_iff : s.get i x = .ok v ↔ s.get? i x = some v := by
  unfold get
  cases s.get? i x <;> simp

theorem get_eq_error_iff {c : Cause} :
    s.get i x = .error c ↔ c = .undefinedVariable x ∧ s.get? i x = none := by
  unfold get
  cases s.get? i x <;> simp [eq_comm]

/-- Other names are looked up as before. -/
theorem get?_bind_of_ne (hne : y ≠ x) (i : ScopeId) : (s.bind j x v).get? i y = s.get? i y := by
  have hvalue : ∀ k, (s.bind j x v).value? k y = s.value? k y := fun k => by
    rw [value?_bind, if_neg fun h => hne h.2.1.symm]
  have hresolve : (s.bind j x v).resolve? i y = s.resolve? i y :=
    resolve?_congr i (fun k _ => outer?_bind ..) fun k _ => by rw [binds_eq, binds_eq, hvalue]
  simp only [get?_eq, hresolve, hvalue]

/-- From where the scope is in sight the name refers to it now, and from elsewhere to what it
referred to before. -/
theorem resolve?_bind (hs : s.WellFormed) (hj : j < s.scopes.size) (i : ScopeId) :
    (s.Sees i x j → (s.bind j x v).resolve? i x = some j) ∧
      (¬s.Sees i x j → (s.bind j x v).resolve? i x = s.resolve? i x ∧ s.resolve? i x ≠ some j) := by
  induction i using Nat.strong_induction_on with
  | _ i ih =>
    by_cases hij : i = j
    · subst hij
      have hb : (s.bind i x v).binds i x = true := by simp [binds_bind, hj]
      exact ⟨fun _ => resolve?_self hb, fun h => absurd (s.sees_self i x) h⟩
    have hbinds : (s.bind j x v).binds i x = s.binds i x := by simp [binds_bind, Ne.symm hij]
    cases hb : s.binds i x with
    | true =>
      rw [hb] at hbinds
      refine ⟨fun h => absurd (eq_of_sees_of_binds h hb) (Ne.symm hij), fun _ => ?_⟩
      rw [resolve?_self hbinds, resolve?_self hb]
      exact ⟨rfl, fun h => hij (Option.some.inj h)⟩
    | false =>
      rw [hb] at hbinds
      cases ho : s.outer? i with
      | none =>
        have ho' : (s.bind j x v).outer? i = none := by rw [outer?_bind, ho]
        refine ⟨fun h => absurd (sees_root ho h) (Ne.symm hij), fun _ => ?_⟩
        rw [resolve?_root hbinds ho', resolve?_root hb ho]
        exact ⟨rfl, nofun⟩
      | some o =>
        have ho' : (s.bind j x v).outer? i = some o := by rw [outer?_bind, ho]
        have hlt : o < i := hs.outer_lt ho
        rw [resolve?_outward hbinds ho' hlt, resolve?_outward hb ho hlt,
          sees_outward hb ho (Ne.symm hij)]
        exact ih o hlt

/-- Binding a name in a scope is seen from where that scope is in sight, and from nowhere else. -/
theorem updates_bind (hs : s.WellFormed) (hj : j < s.scopes.size) (x : String) (v : Value) :
    s.Updates (s.bind j x v) x v (s.Sees · x j) := by
  intro i y
  constructor
  · rintro ⟨rfl, hsees⟩
    rw [get_eq_ok_iff, get?_eq, (resolve?_bind hs hj i).1 hsees, Option.bind_some, value?_bind,
      if_pos ⟨rfl, rfl, hj⟩]
  · intro hnot
    refine get_congr ?_
    by_cases hy : y = x
    · subst hy
      obtain ⟨hresolve, hne⟩ := (resolve?_bind (v := v) hs hj i).2 fun h => hnot ⟨rfl, h⟩
      rw [get?_eq, get?_eq, hresolve]
      cases hk : s.resolve? i y with
      | none => rfl
      | some k =>
        have hkj : j ≠ k := fun h => hne (h ▸ hk)
        rw [Option.bind_some, Option.bind_some, value?_bind, if_neg fun h => hkj h.1]
    · exact get?_bind_of_ne hy i

/-! ## The operations -/

theorem get_eq_ok_iff_refers (hs : s.WellFormed) :
    s.get i x = .ok v ↔ ∃ j, s.Refers i x j ∧ s.value? j x = some v := by
  rw [get_eq_ok_iff, get?_eq, Option.bind_eq_some_iff]
  simp only [refers_iff hs]

theorem get_eq_error_iff_refers (hs : s.WellFormed) {c : Cause} :
    s.get i x = .error c ↔ c = .undefinedVariable x ∧ ∀ j, ¬s.Refers i x j := by
  rw [get_eq_error_iff]
  refine and_congr_right fun _ => ⟨fun hnone j hj => ?_, fun hnone => ?_⟩
  · -- the scope that the name refers to binds it to something
    obtain ⟨u, hu⟩ := Option.isSome_iff_exists.1 ((s.binds_eq j x).symm.trans hj.2)
    rw [get?_eq, (refers_iff hs).1 hj, Option.bind_some, hu] at hnone
    cases hnone
  · cases hr : s.resolve? i x with
    | none => rw [get?_eq, hr, Option.bind_none]
    | some j => exact absurd ((refers_iff hs).2 hr) (hnone j)

theorem assign_eq_ok_iff (hs : s.WellFormed) :
    s.assign i x v = .ok t ↔ ∃ j, s.Refers i x j ∧ t = s.bind j x v := by
  rw [assign_eq]
  simp only [refers_iff hs]
  cases s.resolve? i x <;> simp [eq_comm]

theorem assign_eq_error_iff (hs : s.WellFormed) {c : Cause} :
    s.assign i x v = .error c ↔ c = .undefinedVariable x ∧ ∀ j, ¬s.Refers i x j := by
  rw [assign_eq]
  simp only [refers_iff hs]
  cases s.resolve? i x <;> simp [eq_comm]

theorem refuses_iff : s.refuses i x = true ↔ s.policy i = .forbid ∧ s.binds i x = true := by
  simp [refuses]

theorem define_eq_ok_iff :
    s.define i x v = .ok t ↔ ¬(s.policy i = .forbid ∧ s.binds i x = true) ∧ t = s.bind i x v := by
  rw [define, ← refuses_iff]
  cases s.refuses i x <;> simp [eq_comm]

theorem define_eq_error_iff {c : Cause} : s.define i x v = .error c ↔
    c = .redeclaration x ∧ s.policy i = .forbid ∧ s.binds i x = true := by
  rw [define, ← refuses_iff]
  cases s.refuses i x <;> simp [eq_comm]

/-- From where a scope that binds the name is in sight, the name refers to it. -/
theorem sees_iff_refers (h : s.binds j x = true) : s.Sees i x j ↔ s.Refers i x j :=
  (and_iff_left h).symm

theorem Refers.updates (hs : s.WellFormed) (h : s.Refers i x j) (v : Value) :
    s.Updates (s.bind j x v) x v (s.Refers · x j) := by
  have hupdates := updates_bind hs (lt_size_of_binds h.2) x v
  simpa only [sees_iff_refers h.2] using hupdates

end Store

/-! ## In a run -/

namespace Eval

variable {m : Machine} {x : String} {v : Value} {c : Cause}

/-- A run assigns as its store does, and an assignment that fails leaves the machine. -/
theorem assign_of_error (h : m.store.assign m.scope x v = .error c) (span : Span) :
    Eval.assign span x v m = .error ⟨c, span⟩ m := by
  rw [Store.assign_eq] at h
  rw [assign_eq]
  cases hr : m.store.resolve? m.scope x with
  | some j => simp [hr] at h
  | none =>
    obtain rfl : .undefinedVariable x = c := by simpa [hr] using h
    rfl

/-- A run declares as its store does, and a declaration that fails leaves the machine. -/
theorem declare_of_error (id : Ident) (h : m.store.define m.scope id.name v = .error c) :
    Eval.declare id v m = .error ⟨c, id.span⟩ m := by
  obtain ⟨rfl, hrefuses⟩ := Store.define_eq_error_iff.1 h
  exact if_pos (Store.refuses_iff.2 hrefuses)

theorem assign_of_ok {t : Store} (h : m.store.assign m.scope x v = .ok t) (span : Span) :
    Eval.assign span x v m = .ok v { m with store := t } := by
  rw [Store.assign_eq] at h
  rw [assign_eq]
  cases hr : m.store.resolve? m.scope x with
  | none => simp [hr] at h
  | some j =>
    obtain rfl : m.store.bind j x v = t := by simpa [hr] using h
    rfl

theorem declare_of_ok {t : Store} (id : Ident) (h : m.store.define m.scope id.name v = .ok t) :
    Eval.declare id v m = .ok () { m with store := t } := by
  obtain ⟨hrefuses, rfl⟩ := Store.define_eq_ok_iff.1 h
  exact if_neg fun hr => hrefuses (Store.refuses_iff.1 hr)

end Eval

/-! ## The main result -/

/-- What the operations on a scope of a well-formed store mean. A name is looked up in the scope
that it refers to, and is undefined exactly if there is none. It can be assigned to exactly
if it can be looked up, and then has the value from wherever it refers to the same scope. It is
declared unless the scope forbids it and binds it already, and then has the value from wherever
the scope is in sight. All other lookups stay as they were, from every scope, and an operation that
fails changes nothing. A run assigns and declares as its store does. -/
theorem Store.environment_meaning {s : Store} (hs : s.WellFormed) {e : ScopeId}
    (he : e < s.scopes.size) (x : String) (v : Value) :
    (∀ u, s.get e x = .ok u ↔ ∃ j, s.Refers e x j ∧ s.value? j x = some u) ∧
    (∀ c, s.get e x = .error c ↔ c = .undefinedVariable x ∧ ∀ j, ¬s.Refers e x j) ∧
    ((∃ t, s.assign e x v = .ok t) ↔ ∃ u, s.get e x = .ok u) ∧
    (∀ t, s.assign e x v = .ok t → ∃ j, s.Refers e x j ∧ s.Updates t x v (s.Refers · x j)) ∧
    (∀ c, s.assign e x v = .error c →
      c = .undefinedVariable x ∧ (Operation.assign e x v).apply s = s) ∧
    (∀ t, s.define e x v = .ok t → s.Updates t x v (s.Sees · x e)) ∧
    (∀ c, s.define e x v = .error c ↔
      c = .redeclaration x ∧ s.policy e = .forbid ∧ s.binds e x = true) ∧
    (∀ c, s.define e x v = .error c → (Operation.define e x v).apply s = s) ∧
    ∀ m : Machine, m.store = s → m.scope = e →
      (∀ span t, s.assign e x v = .ok t → Eval.assign span x v m = .ok v { m with store := t }) ∧
      (∀ span c, s.assign e x v = .error c → Eval.assign span x v m = .error ⟨c, some span⟩ m) ∧
      ∀ span, (∀ t, s.define e x v = .ok t →
          Eval.declare ⟨x, span⟩ v m = .ok () { m with store := t }) ∧
        ∀ c, s.define e x v = .error c → Eval.declare ⟨x, span⟩ v m = .error ⟨c, some span⟩ m := by
  refine ⟨fun u => get_eq_ok_iff_refers hs, fun c => get_eq_error_iff_refers hs, ?_,
    fun t ht => ?_, fun c hc => ⟨((assign_eq_error_iff hs).1 hc).1, ?_⟩, fun t ht => ?_,
    fun c => define_eq_error_iff, fun c hc => ?_, ?_⟩
  · -- both find the scope that the name refers to, and that one binds it to some value
    simp only [assign_eq_ok_iff hs, get_eq_ok_iff_refers hs]
    constructor
    · rintro ⟨t, j, hj, -⟩
      obtain ⟨u, hu⟩ := Option.isSome_iff_exists.1 ((s.binds_eq j x).symm.trans hj.2)
      exact ⟨u, j, hj, hu⟩
    · rintro ⟨u, j, hj, -⟩
      exact ⟨_, j, hj, rfl⟩
  · obtain ⟨j, hj, rfl⟩ := (assign_eq_ok_iff hs).1 ht
    exact ⟨j, hj, hj.updates hs v⟩
  · rw [Operation.apply, hc]
    rfl
  · obtain ⟨-, rfl⟩ := define_eq_ok_iff.1 ht
    exact updates_bind hs he x v
  · rw [Operation.apply, hc]
    rfl
  · rintro m rfl rfl
    exact ⟨fun span t ht => Eval.assign_of_ok ht span,
      fun span c hc => Eval.assign_of_error hc span,
      fun span => ⟨fun t ht => Eval.declare_of_ok ⟨x, span⟩ ht,
        fun c hc => Eval.declare_of_error ⟨x, span⟩ hc⟩⟩

/-- A root that binds `x`, a scope inside it that binds `x` too, and beside that one a scope with
another one inside, which bind nothing. -/
def Store.twoBranches : Store :=
  ((((Store.empty.openRoot .forbid).bind 0 "x" (.bool true)).openInside 0 .block).bind 1 "x"
    .nil).openInside 0 .block |>.openInside 2 (.call none)

/-- An assignment from the inmost scope is seen from its branch and from the root, and hidden by the
binding of the other branch, which also refuses the name. -/
theorem Store.environment_meaning_twoBranches :
    let s := Store.twoBranches
    s.WellFormed ∧ 3 < s.scopes.size ∧ 1 < s.scopes.size ∧
      (∃ t, s.assign 3 "x" (.bool false) = .ok t ∧ t.get 3 "x" = .ok (.bool false) ∧
        t.get 2 "x" = .ok (.bool false) ∧ t.get 0 "x" = .ok (.bool false) ∧
        t.get 1 "x" = s.get 1 "x") ∧
      (∃ t, s.define 2 "x" .nil = .ok t ∧ t.get 3 "x" = .ok .nil ∧ t.get 0 "x" = s.get 0 "x") ∧
      s.define 1 "x" .nil = .error (.redeclaration "x") := by
  intro s
  have hdata : ∀ {t : Store} (b : Bool), t.Holds (.bool b) ∧ t.Holds .nil := fun b =>
    ⟨by rintro k ⟨⟩, by rintro k ⟨⟩⟩
  have hs : s.WellFormed :=
    (((((Store.WellFormed.empty.openRoot .forbid).bind (hdata true).1).openInside
      (by decide) _).bind (hdata true).2).openInside (by decide) _).openInside (by decide) _
  have h₃ : 3 < s.scopes.size := by decide
  have h₂ : 2 < s.scopes.size := by decide
  have h₁ : 1 < s.scopes.size := by decide
  have hroot : ∀ i, s.resolve? i "x" = some 0 → s.Refers i "x" 0 := fun i => (refers_iff hs).2
  have hother : ¬s.Refers 1 "x" 0 := by
    rw [refers_iff hs]
    intro h
    have hself : s.resolve? 1 "x" = some 1 := by cbv
    cases hself.symm.trans h
  obtain ⟨-, -, hassigns, hassign, -⟩ := Store.environment_meaning hs h₃ "x" (.bool false)
  obtain ⟨-, -, -, -, -, hdefine, -⟩ := Store.environment_meaning hs h₂ "x" .nil
  obtain ⟨-, -, -, -, -, -, hrefused, -⟩ := Store.environment_meaning hs h₁ "x" .nil
  have hget : s.get 3 "x" = .ok (.bool true) := by cbv
  obtain ⟨t, ht⟩ := hassigns.2 ⟨_, hget⟩
  obtain ⟨j, hj, hupdates⟩ := hassign t ht
  obtain rfl : 0 = j := by
    have hresolve : s.resolve? 3 "x" = some 0 := by cbv
    exact Option.some.inj (hresolve.symm.trans ((refers_iff hs).1 hj))
  have hfree : s.binds 2 "x" = false := by cbv
  have hdefined : s.define 2 "x" .nil = .ok (s.bind 2 "x" .nil) :=
    define_eq_ok_iff.2 ⟨fun h => Bool.false_ne_true (hfree.symm.trans h.2), rfl⟩
  have hsees : ¬s.Sees 0 "x" 2 := fun h => by
    have ho : s.outer? 0 = none := by cbv
    cases sees_root ho h
  refine ⟨hs, h₃, h₁, ⟨t, ht, ?_, ?_, ?_, ?_⟩, ⟨_, hdefined, ?_, ?_⟩, ?_⟩
  · exact (hupdates 3 "x").1 ⟨rfl, hj⟩
  · exact (hupdates 2 "x").1 ⟨rfl, hroot 2 (by cbv)⟩
  · exact (hupdates 0 "x").1 ⟨rfl, hroot 0 (by cbv)⟩
  · exact (hupdates 1 "x").2 fun h => hother h.2
  · refine (hdefine _ hdefined 3 "x").1 ⟨rfl, (sees_outward (o := 2) (by cbv) (by cbv) ?_).2 ?_⟩
    · decide
    · exact s.sees_self 2 "x"
  · exact (hdefine _ hdefined 0 "x").2 fun h => hsees h.2
  · exact (hrefused _).2 ⟨rfl, by cbv, by cbv⟩

end Scoped
