import Scoped.Proofs.Context

/-!
# Well-formed stores

A store is well-formed if every outer scope is older than the scopes inside it and every
closure bound anywhere captures a scope that exists. Evaluation keeps stores well-formed
(`Invariant.wellFormed`), whatever it ends with.

In a well-formed store the walk along outer links from any scope ends : `Store.Walks` is that
walk, with nothing to bound it, and `Store.walks_iff` says that it ends, with the scope that
`resolve?` computes.
-/

namespace Scoped

namespace Store

variable {s : Store} {i j : ScopeId} {x : String} {v : Value} {r : Option ScopeId}

/-- The value captures no scope that does not exist. -/
def Holds (s : Store) (v : Value) : Prop := v.Within (· < s.scopes.size)

/-- Scope chains are finite, and closures capture scopes of the store. -/
structure WellFormed (s : Store) : Prop where
  outer_lt : ∀ {i o}, s.outer? i = some o → o < i
  holds : ∀ {i x v}, s.value? i x = some v → s.Holds v

theorem Holds.mono {t : Store} (h : s.Holds v) (hg : s.scopes.size ≤ t.scopes.size) : t.Holds v :=
  fun i hi => (h i hi).trans_le hg

theorem WellFormed.bind (h : s.WellFormed) (hv : s.Holds v) : (s.bind i x v).WellFormed where
  outer_lt ho := h.outer_lt (by simpa using ho)
  holds {j y u} hu := by
    rw [value?_bind] at hu
    refine Holds.mono (s := s) ?_ (by simp)
    split at hu
    · cases hu
      exact hv
    · exact h.holds hu

theorem WellFormed.openInside (h : s.WellFormed) (hi : i < s.scopes.size) (k : ScopeKind) :
    (s.openInside i k).WellFormed where
  outer_lt {j o} ho := by
    rw [outer?_openInside] at ho
    split at ho
    · next hj =>
      cases ho
      exact hj ▸ hi
    · exact h.outer_lt ho
  holds hv := (h.holds (by simpa using hv)).mono (by simp)

theorem WellFormed.holds_get? (h : s.WellFormed) (hv : s.get? i x = some v) : s.Holds v := by
  rw [get?_eq] at hv
  obtain ⟨j, -, hv⟩ := Option.bind_eq_some_iff.1 hv
  exact h.holds hv

theorem WellFormed.empty : Store.empty.WellFormed where
  outer_lt ho := by simp [Store.outer?, Store.empty] at ho
  holds hv := by simp [Store.value?, Store.record?, Store.empty] at hv

theorem WellFormed.openRoot (h : s.WellFormed) (p : Redeclaration) : (s.openRoot p).WellFormed where
  outer_lt {j o} ho := by
    rw [outer?_openRoot] at ho
    split at ho
    · cases ho
    · exact h.outer_lt ho
  holds hv := (h.holds (by simpa using hv)).mono (by simp)

/-! ## Walks along outer links -/

/-- Walking outward from a scope to the first one that binds a name, or to a root. -/
inductive Walks (s : Store) (x : String) : ScopeId → Option ScopeId → Prop
  | here {i : ScopeId} : s.binds i x = true → Walks s x i (some i)
  | root {i : ScopeId} : s.binds i x = false → s.outer? i = none → Walks s x i none
  | outward {i o : ScopeId} {r : Option ScopeId} : s.binds i x = false → s.outer? i = some o →
    Walks s x o r → Walks s x i r

theorem resolve?_root (hb : s.binds i x = false) (ho : s.outer? i = none) :
    s.resolve? i x = none := by
  rw [resolve?, chain, ho]
  simp [hb]

theorem resolve?_outward {o : ScopeId} (hb : s.binds i x = false) (ho : s.outer? i = some o)
    (hlt : o < i) : s.resolve? i x = s.resolve? o x := by
  rw [resolve?, chain, ho]
  simp only [hlt, if_true]
  rw [List.find?_cons_of_neg (by simp [hb]), resolve?]

/-- A walk ends in one way. -/
theorem Walks.unique {j k : Option ScopeId} (hj : s.Walks x i j) (hk : s.Walks x i k) : j = k := by
  induction hj with
  | here hb =>
    cases hk with
    | here => rfl
    | root hb' | outward hb' => cases hb.symm.trans hb'
  | root hb ho =>
    cases hk with
    | here hb' => cases hb.symm.trans hb'
    | root => rfl
    | outward _ ho' => cases ho.symm.trans ho'
  | outward hb ho _ ih =>
    cases hk with
    | here hb' => cases hb.symm.trans hb'
    | root _ ho' => cases ho.symm.trans ho'
    | outward _ ho' hk =>
      obtain rfl := Option.some.inj (ho.symm.trans ho')
      exact ih hk

/-- Every walk ends, and only where `resolve?` says. -/
theorem walks_iff (h : s.WellFormed) : s.Walks x i r ↔ r = s.resolve? i x := by
  constructor
  · intro hw
    induction hw with
    | here hb => rw [resolve?_self hb]
    | root hb ho => rw [resolve?_root hb ho]
    | outward hb ho _ ih => rw [resolve?_outward hb ho (h.outer_lt ho), ih]
  · rintro rfl
    induction i using Nat.strong_induction_on with
    | _ i ih =>
      cases hb : s.binds i x with
      | true =>
        rw [resolve?_self hb]
        exact .here hb
      | false =>
        cases ho : s.outer? i with
        | none =>
          rw [resolve?_root hb ho]
          exact .root hb ho
        | some o =>
          rw [resolve?_outward hb ho (h.outer_lt ho)]
          exact .outward hb ho (ih o (h.outer_lt ho))

end Store

/-! ## The invariant -/

/-- Stores stay well-formed, and runs are in scopes that exist. -/
def Invariant.wellFormed : Invariant where
  inv := Store.WellFormed
  ok := Store.Holds
  seen s i := i < s.scopes.size
  home s i := i < s.scopes.size
  ok_grows hg h := h.mono hg.size_le
  seen_grows hg h := h.trans_le hg.size_le
  home_grows hg h := h.trans_le hg.size_le
  seen_of_home h := h
  ok_data h := Value.within_of_type h
  seen_captured h := h _ rfl
  ok_get? h _ hv := h.holds_get? hv
  assign h _ _ hv := h.bind hv
  declare h _ hv := h.bind hv
  takeIdentity h := ⟨h.outer_lt, h.holds⟩
  ok_closure _ hi := by
    rintro j ⟨⟩
    exact hi
  openInside h hi := h.openInside hi _
  home_openInside _ _ := by simp [Store.nextScope]

end Scoped
