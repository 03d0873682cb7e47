import Scoped.Proofs.Context

/-!
# Calls are local

A call sees the scopes that can be reached from the function and its arguments, and no
others. `Store.Reaches` is the least set of scopes that contains those which the values
capture, and with a scope its outer scope and the scopes that closures bound in it capture.
`Host.call_local` says that a call leaves every other scope untouched, and that its value or
error, the lines it prints and what it does to the scopes do not depend on them, nor on the
scope that the call is made from : scoping is lexical, and closures over different scopes
are independent.

What is reachable changes while a call goes on, since closures are stored, passed and
returned. The set that stays closed is that of the scopes which were reachable at the start
together with all scopes opened since, and the invariant `Local` is about it.
-/

namespace Scoped

open Simulation

namespace Store

variable {s t s₀ : Store} {i j : ScopeId} {x : String} {v : Value}

/-- The scopes that can be reached from some values. -/
inductive Reaches (s : Store) (vs : List Value) : ScopeId → Prop
  | captured {v : Value} {i : ScopeId} : v ∈ vs → v.captured? = some i → Reaches s vs i
  | outer {i o : ScopeId} : Reaches s vs i → s.outer? i = some o → Reaches s vs o
  | bound {i j : ScopeId} {x : String} {v : Value} : Reaches s vs i → s.value? i x = some v →
    v.captured? = some j → Reaches s vs j

/-! ## Agreement -/

/-- Two stores have the same scope at a number. -/
structure AgreesAt (s t : Store) (i : ScopeId) : Prop where
  outer? : t.outer? i = s.outer? i
  policy : t.policy i = s.policy i
  function? : t.function? i = s.function? i
  value? : ∀ x, t.value? i x = s.value? i x

theorem AgreesAt.refl (s : Store) (i : ScopeId) : s.AgreesAt s i :=
  ⟨rfl, rfl, rfl, fun _ => rfl⟩

theorem AgreesAt.binds (h : s.AgreesAt t i) (x : String) : t.binds i x = s.binds i x := by
  rw [binds_eq, binds_eq, h.value?]

theorem AgreesAt.refuses (h : s.AgreesAt t i) (x : String) : t.refuses i x = s.refuses i x := by
  rw [Store.refuses, Store.refuses, h.policy, h.binds]

theorem AgreesAt.bind (h : s.AgreesAt t j) (hsize : t.scopes.size = s.scopes.size) (i : ScopeId)
    (x : String) (v : Value) : (s.bind i x v).AgreesAt (t.bind i x v) j where
  outer? := by simpa using h.outer?
  policy := by simpa using h.policy
  function? := by simpa using h.function?
  value? y := by rw [value?_bind, value?_bind, hsize, h.value?]

theorem AgreesAt.openInside (h : s.AgreesAt t j) (hsize : t.scopes.size = s.scopes.size)
    (hi : t.policy i = s.policy i) (k : ScopeKind) :
    (s.openInside i k).AgreesAt (t.openInside i k) j where
  outer? := by rw [outer?_openInside, outer?_openInside, hsize, h.outer?]
  policy := by rw [policy_openInside, policy_openInside, hsize, h.policy, hi]
  function? := by rw [function?_openInside, function?_openInside, hsize, h.function?]
  value? y := by simpa using h.value? y

theorem agreesAt_of_size_le (hs : s.scopes.size ≤ i) (ht : t.scopes.size ≤ i) :
    s.AgreesAt t i := by
  constructor <;>
    simp [Store.outer?, Store.policy, Store.function?, Store.value?, Store.record?,
      Array.getElem?_eq_none hs, Array.getElem?_eq_none ht]

/-! ## The invariant -/

/-- Two stores that agree on a closed set `P` of scopes, the first one grown from `s₀` by
changes inside `P`. -/
structure Local (P : ScopeId → Prop) (s₀ s t : Store) : Prop where
  size_le : s₀.scopes.size ≤ s.scopes.size
  size_eq : t.scopes.size = s.scopes.size
  identity_eq : t.nextIdentity = s.nextIdentity
  agrees : ∀ {i}, P i → s.AgreesAt t i
  outer : ∀ {i o}, P i → s.outer? i = some o → P o
  bound : ∀ {i x v}, P i → s.value? i x = some v → v.Within P
  outside : ∀ {i}, ¬P i → s.scopes[i]? = s₀.scopes[i]?

namespace Local

variable {P : ScopeId → Prop}

theorem mem_chain (h : Local P s₀ s t) (hi : P i) (hj : j ∈ s.chain i) : P j :=
  mem_chain_of_closed h.outer hi hj

theorem resolve?_eq (h : Local P s₀ s t) (hi : P i) : t.resolve? i x = s.resolve? i x :=
  resolve?_congr i (fun _ hj => (h.agrees (h.mem_chain hi hj)).outer?) fun _ hj =>
    (h.agrees (h.mem_chain hi hj)).binds x

theorem get?_eq (h : Local P s₀ s t) (hi : P i) : t.get? i x = s.get? i x := by
  rw [Store.get?_eq, Store.get?_eq, h.resolve?_eq hi]
  cases hj : s.resolve? i x with
  | none => rfl
  | some j => exact (h.agrees (h.mem_chain hi (mem_chain_of_resolve? hj))).value? x

theorem within_get? (h : Local P s₀ s t) (hi : P i) (hv : s.get? i x = some v) : v.Within P := by
  rw [Store.get?_eq] at hv
  obtain ⟨j, hj, hv⟩ := Option.bind_eq_some_iff.1 hv
  exact h.bound (h.mem_chain hi (mem_chain_of_resolve? hj)) hv

protected theorem bind (h : Local P s₀ s t) (hj : P j) (hv : v.Within P) :
    Local P s₀ (s.bind j x v) (t.bind j x v) where
  size_le := by simpa using h.size_le
  size_eq := by simpa using h.size_eq
  identity_eq := h.identity_eq
  agrees hi := (h.agrees hi).bind h.size_eq j x v
  outer hi ho := h.outer hi (by simpa using ho)
  bound hi hu := by
    rw [value?_bind] at hu
    split at hu
    · cases hu
      exact hv
    · exact h.bound hi hu
  outside {i} hi := by
    have hij : j ≠ i := fun hij => hi (hij ▸ hj)
    rw [getElem?_bind, if_neg hij, h.outside hi]

protected theorem takeIdentity (h : Local P s₀ s t) :
    Local P s₀ s.takeIdentity t.takeIdentity where
  size_le := h.size_le
  size_eq := h.size_eq
  identity_eq := by simp [h.identity_eq]
  agrees hi := ⟨(h.agrees hi).outer?, (h.agrees hi).policy, (h.agrees hi).function?,
    (h.agrees hi).value?⟩
  outer := h.outer
  bound := h.bound
  outside := h.outside

protected theorem openInside (fresh : ∀ {i}, s₀.scopes.size ≤ i → P i) (h : Local P s₀ s t)
    (hj : P j) (k : ScopeKind) : Local P s₀ (s.openInside j k) (t.openInside j k) where
  size_le := by simpa using h.size_le.trans (Nat.le_succ _)
  size_eq := by simpa using h.size_eq
  identity_eq := h.identity_eq
  agrees hi := (h.agrees hi).openInside h.size_eq (h.agrees hj).policy k
  outer hi ho := by
    rw [outer?_openInside] at ho
    split at ho
    · cases ho
      exact hj
    · exact h.outer hi ho
  bound hi hv := h.bound hi (by simpa using hv)
  outside {i} hi := by
    have hne : i ≠ s.scopes.size := fun hs => hi (fresh (hs ▸ h.size_le))
    rw [getElem?_openInside, if_neg hne, h.outside hi]

end Local

end Store

/-- Two runs that agree on a closed set of scopes, which all fresh scopes belong to. -/
def Simulation.within (P : ScopeId → Prop) (s₀ : Store)
    (fresh : ∀ {i}, s₀.scopes.size ≤ i → P i) : Simulation where
  rel s t := Store.Local P s₀ s t
  ok _ v := v.Within P
  seen _ i := P i
  home _ i := P i
  ok_grows _ h := h
  seen_grows _ h := h
  home_grows _ h := h
  seen_of_home h := h
  ok_data h := Value.within_of_type h
  seen_captured h := h _ rfl
  get?_eq h hi := h.get?_eq hi
  ok_get? h hi hv := h.within_get? hi hv
  resolve?_eq h hi := h.resolve?_eq hi
  assign h hi hj hv := h.bind (h.mem_chain hi (Store.mem_chain_of_resolve? hj)) hv
  refuses_eq h hi := (h.agrees hi).refuses _
  declare h hi hv := h.bind hi hv
  nextIdentity_eq h := h.identity_eq
  takeIdentity h := h.takeIdentity
  ok_closure _ hi := by
    rintro j ⟨⟩
    exact hi
  nextScope_eq h := h.size_eq
  openInside h hi := h.openInside fresh hi _
  home_openInside h _ := fresh h.size_le

/-! ## Calls -/

/-- The scopes that are reachable before a call, with those that do not exist yet, are a
closed set. -/
theorem Store.local_of_agrees {s t : Store} {vs : List Value}
    (hsize : t.scopes.size = s.scopes.size) (hid : t.nextIdentity = s.nextIdentity)
    (h : ∀ i, s.Reaches vs i → s.AgreesAt t i) :
    Store.Local (fun i => s.Reaches vs i ∨ s.scopes.size ≤ i) s s t where
  size_le := le_refl _
  size_eq := hsize
  identity_eq := hid
  agrees {i} hi := by
    rcases hi with hi | hi
    · exact h i hi
    · exact agreesAt_of_size_le hi (hsize ▸ hi)
  outer {i o} hi ho := by
    rcases hi with hi | hi
    · exact Or.inl (.outer hi ho)
    · exact absurd (lt_size_of_outer? ho) (Nat.not_lt.2 hi)
  bound {i x v} hi hv := by
    rcases hi with hi | hi
    · exact fun j hj => Or.inl (.bound hi hv hj)
    · exact absurd (lt_size_of_value? hv) (Nat.not_lt.2 hi)
  outside _ := rfl

/-- A call leaves the scopes that cannot be reached from the function and its arguments as
they are, and from two machines that agree on the others, in whatever scopes, it ends alike :
with one value or error, the same lines printed, and stores that agree on the reachable
scopes and on those that the call opened. -/
theorem Host.call_local (host : Host) (f : Function) (args : List Value) (m : Machine) :
    (∀ i < m.store.scopes.size, ¬m.store.Reaches (.function f :: args) i →
      ((host.call f args).final m).store.scopes[i]? = m.store.scopes[i]?) ∧
    ∀ n : Machine, n.depth = m.depth → n.config = m.config →
      n.store.scopes.size = m.store.scopes.size → n.store.nextIdentity = m.store.nextIdentity →
      (∀ i, m.store.Reaches (.function f :: args) i → m.store.AgreesAt n.store i) →
      (host.call f args).outcome n = (host.call f args).outcome m ∧
      (∃ lines, ((host.call f args).final m).printed = m.printed ++ lines ∧
        ((host.call f args).final n).printed = n.printed ++ lines) ∧
      ((host.call f args).final n).store.scopes.size =
        ((host.call f args).final m).store.scopes.size ∧
      ((host.call f args).final n).store.nextIdentity =
        ((host.call f args).final m).store.nextIdentity ∧
      ∀ i, m.store.Reaches (.function f :: args) i ∨ m.store.scopes.size ≤ i →
        ((host.call f args).final m).store.AgreesAt ((host.call f args).final n).store i := by
  let P := fun i => m.store.Reaches (.function f :: args) i ∨ m.store.scopes.size ≤ i
  let S := Simulation.within P m.store Or.inr
  have hvs : ∀ v ∈ Value.function f :: args, v.Within P := fun v hv i hi =>
    Or.inl (.captured hv hi)
  have hcall : ∀ j, S.Respects m.store m.context (m.context.enter j) S.ok (host.call f args)
      (host.call f args) := fun j =>
    respects_call (c := m.context) (i := m.scope) host (hvs _ (by simp)) fun v hv =>
      hvs v (List.mem_cons_of_mem _ hv)
  constructor
  · intro i hi hreach
    -- the second run is the first one again
    have hrel : S.rel m.store m.store :=
      Store.local_of_agrees rfl rfl fun i _ => Store.AgreesAt.refl _ i
    obtain ⟨-, h, -⟩ := (hcall m.scope).ends (n := m) hrel
    exact h.rel.outside (not_or.2 ⟨hreach, Nat.not_le.2 hi⟩)
  · intro n hdepth hconfig hsize hid hagree
    have hn : m.context.enter n.scope = n.context := by
      simp only [Machine.context, Context.enter, hdepth, hconfig]
    have hrel : S.rel m.store n.store := Store.local_of_agrees hsize hid hagree
    obtain ⟨hout, h, -⟩ := (hn ▸ hcall n.scope).ends hrel
    exact ⟨hout.symm, h.printed, h.rel.size_eq, h.rel.identity_eq, fun i hi => h.rel.agrees hi⟩

/-- A root scope with two scopes inside, which both bind `i`. -/
def Store.twoCounters (a b : Int64) : Store :=
  ((((Store.empty.openRoot .allow).openInside 0 .block).openInside 0 .block).bind 1 "i"
    (.number (.int a))).bind 2 "i" (.number (.int b))

/-- A function that adds one to `i`, made in the first of the two scopes. -/
def Function.count : Function :=
  .closure 0 (.mk ⟨0, 0⟩ none [] ⟨0, 0⟩ [.ret ⟨0, 0⟩ (some (.assign ⟨0, 0⟩ ⟨"i", ⟨0, 0⟩⟩
    (.binary ⟨0, 0⟩ .add (.ident ⟨"i", ⟨0, 0⟩⟩) (.literal ⟨0, 0⟩ (.number (.int 1))))))]) 1

theorem Store.value?_twoCounters (a b : Int64) (i : ScopeId) (x : String) :
    (twoCounters a b).value? i x = if i = 1 ∧ x = "i" then some (.number (.int a))
      else if i = 2 ∧ x = "i" then some (.number (.int b)) else none := by
  have h0 : (Store.empty.openRoot .allow).value? i x = none := by
    cases i <;> simp [Store.value?, Store.record?, Store.openRoot, Store.push, Store.empty]
  simp only [twoCounters, value?_bind, value?_openInside, h0, size_bind, size_openInside]
  simp only [Store.openRoot, Store.push, Store.empty, List.size_toArray, Array.size_push]
  grind

theorem Store.outer?_twoCounters (a b : Int64) (i : ScopeId) :
    (twoCounters a b).outer? i = if i = 1 ∨ i = 2 then some 0 else none := by
  have h0 : (Store.empty.openRoot .allow).outer? i = none := by
    cases i <;> simp [Store.outer?, Store.openRoot, Store.push, Store.empty]
  simp only [twoCounters, outer?_bind, outer?_openInside, h0, size_openInside]
  simp only [Store.openRoot, Store.push, Store.empty, List.size_toArray, Array.size_push]
  grind

theorem Store.reaches_twoCounters {a b : Int64} {i : ScopeId}
    (h : (twoCounters a b).Reaches [.function .count] i) : i = 0 ∨ i = 1 := by
  induction h with
  | captured hv hi =>
    rw [List.mem_singleton.1 hv] at hi
    cases hi
    exact Or.inr rfl
  | outer _ ho ih =>
    rw [outer?_twoCounters] at ho
    grind
  | bound _ hv hj ih =>
    rw [value?_twoCounters] at hv
    split at hv
    · cases hv
      cases hj
    · split at hv <;> cases hv
      cases hj

theorem Store.agreesAt_twoCounters {a b b' : Int64} {i : ScopeId}
    (h : (twoCounters a b).Reaches [.function .count] i) :
    (twoCounters a b).AgreesAt (twoCounters a b') i where
  outer? := by rw [outer?_twoCounters, outer?_twoCounters]
  policy := by simp only [twoCounters, policy_bind]
  function? := by simp only [twoCounters, function?_bind]
  value? x := by
    have hi : i ≠ 2 := by
      rcases reaches_twoCounters h with rfl | rfl <;> decide
    simp only [value?_twoCounters, hi, false_and, if_false]

/-- The first counter counts alike whatever the second one is at, from the root as from the
scope of the second counter, which stays as it is. -/
theorem Host.call_local_twoCounters :
    let m : Machine := ⟨.twoCounters 0 7, 0, .standard, 0, #[]⟩
    let n : Machine := ⟨.twoCounters 0 8, 2, .standard, 0, #["8"]⟩
    let x := Host.call ⟨0⟩ .count []
    (x.final m).store.scopes[2]? = m.store.scopes[2]? ∧ x.outcome n = x.outcome m ∧
      (x.final m).store.AgreesAt (x.final n).store 1 := by
  intro m n x
  obtain ⟨ha, hb⟩ := Host.call_local ⟨0⟩ .count [] m
  have hreach : m.store.Reaches [.function .count] 1 :=
    .captured (List.mem_singleton_self _) rfl
  have hsize : 2 < m.store.scopes.size := by
    simp [m, Store.twoCounters, Store.openRoot, Store.push, Store.empty]
  have h2 : ¬m.store.Reaches [.function .count] 2 := fun h => by
    rcases Store.reaches_twoCounters h with h | h <;> cases h
  have hsizes : n.store.scopes.size = m.store.scopes.size := by
    simp [m, n, Store.twoCounters]
  obtain ⟨hout, -, -, -, hagree⟩ := hb n rfl rfl hsizes rfl fun i hi =>
    Store.agreesAt_twoCounters hi
  exact ⟨ha 2 hsize h2, hout, hagree 1 (Or.inl hreach)⟩

end Scoped
