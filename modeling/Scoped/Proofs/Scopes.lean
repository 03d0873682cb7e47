import Mathlib.Data.List.Find
import Scoped.Store.Basic

/-!
# What the operations of a store change

A run changes a store in three ways : a name is bound in a scope (`bind`), a scope is opened
inside another one (`openInside`), and an identity is handed out (`takeIdentity`). A host also
opens roots (`openRoot`). The lemmas of this module say how the views of a scope (its outer
scope, its policy, the values it binds) look after each of them, so that later proofs do not
open the store.

`Store.Grows` is what all of them have in common : scopes are never removed, keep their outer
scope, policy and function, and bind what they bound before. It is a preorder, and a name
that resolves from a scope still resolves from it in a grown store
(`Grows.isSome_resolve?`).
-/

namespace Scoped

/-! ## Records -/

namespace DeclarativeRecord

theorem get?_empty (x : String) : empty.get? x = none := Std.HashMap.getElem?_emptyWithCapacity

theorem get?_bind (r : DeclarativeRecord) (x y : String) (v : Value) :
    (r.bind x v).get? y = if x = y then some v else r.get? y := by
  simp [bind, get?, Std.HashMap.getElem?_insert]

theorem has_eq (r : DeclarativeRecord) (x : String) : r.has x = (r.get? x).isSome :=
  Std.HashMap.contains_eq_isSome_getElem?

theorem set?_eq (r : DeclarativeRecord) (x : String) (v : Value) :
    r.set? x v = if r.has x then some (r.bind x v) else none := by
  rw [has_eq, set?, get?]
  cases r.bindings[x]? <;> rfl

theorem mem_names (r : DeclarativeRecord) (x : String) : x ∈ r.names ↔ r.has x = true := by
  rw [names, List.mem_mergeSort, Std.HashMap.mem_keys, Std.HashMap.mem_iff_contains, has]

end DeclarativeRecord

namespace Record

/-- The bindings of a record, whatever its scope was opened for. -/
def base : Record → DeclarativeRecord
  | declarative r => r
  | call r => r.base

theorem get?_eq (r : Record) (x : String) : r.get? x = r.base.get? x := by cases r <;> rfl

theorem base_bind (r : Record) (x : String) (v : Value) : (r.bind x v).base = r.base.bind x v := by
  cases r <;> rfl

@[simp]
theorem get?_empty (k : ScopeKind) (x : String) : (empty k).get? x = none := by
  cases k <;> exact DeclarativeRecord.get?_empty x

@[simp]
theorem get?_bind (r : Record) (x y : String) (v : Value) :
    (r.bind x v).get? y = if x = y then some v else r.get? y := by
  rw [get?_eq, get?_eq, base_bind, DeclarativeRecord.get?_bind]

theorem has_eq (r : Record) (x : String) : r.has x = (r.get? x).isSome := by
  cases r <;> exact DeclarativeRecord.has_eq _ x

theorem set?_eq (r : Record) (x : String) (v : Value) :
    r.set? x v = if r.has x then some (r.bind x v) else none := by
  cases r with
  | declarative r =>
    rw [set?, DeclarativeRecord.set?_eq, apply_ite (Option.map declarative)]
    rfl
  | call r =>
    rw [set?, CallRecord.set?, DeclarativeRecord.set?_eq, Option.map_map,
      apply_ite (Option.map (call ∘ _))]
    rfl

theorem mem_names (r : Record) (x : String) : x ∈ r.names ↔ r.has x = true := by
  cases r <;> exact DeclarativeRecord.mem_names _ x

@[simp]
theorem function?_bind (r : Record) (x : String) (v : Value) :
    (r.bind x v).function? = r.function? := by cases r <;> rfl

end Record

/-- The scope that a value captures. -/
def Value.captured? : Value → Option ScopeId
  | .function (.closure _ _ i) => some i
  | _ => none

/-- The value captures no scope outside `P`. -/
def Value.Within (P : ScopeId → Prop) (v : Value) : Prop := ∀ i, v.captured? = some i → P i

theorem Value.within_of_type {P : ScopeId → Prop} {v : Value} (h : v.type ≠ .function) :
    v.Within P := by
  cases v <;> simp_all [Within, captured?, type]

namespace Store

variable {s t u : Store} {i j o : ScopeId} {x y : String} {v : Value}

/-! ## Views -/

/-- The value that a scope itself binds a name to. -/
def value? (s : Store) (i : ScopeId) (x : String) : Option Value :=
  (s.record? i).bind (·.get? x)

theorem binds_eq (s : Store) (i : ScopeId) (x : String) : s.binds i x = (s.value? i x).isSome := by
  unfold binds value?
  cases s.record? i with
  | none => rfl
  | some r => exact r.has_eq x

theorem findSome?_value? (s : Store) (x : String) (is : List ScopeId) :
    is.findSome? (s.value? · x) = (is.find? (s.binds · x)).bind (s.value? · x) := by
  induction is with
  | nil => rfl
  | cons i is ih =>
    rw [List.findSome?_cons, List.find?_cons, s.binds_eq]
    cases hv : s.value? i x with
    | none => exact ih
    | some v => exact hv.symm

/-- The walk for the value of a name and the walk for its scope stop at the same scope. -/
theorem get?_eq (s : Store) (i : ScopeId) (x : String) :
    s.get? i x = (s.resolve? i x).bind (s.value? · x) := s.findSome?_value? x (s.chain i)

theorem mem_names (s : Store) (i : ScopeId) (x : String) : x ∈ s.names i ↔ s.binds i x = true := by
  unfold names binds
  cases s.record? i with
  | none => simp
  | some r => exact r.mem_names x

theorem record?_eq_none_iff : s.record? i = none ↔ s.scopes.size ≤ i := by
  simp [record?]

theorem lt_size_of_outer? (h : s.outer? i = some o) : i < s.scopes.size := by
  by_contra hi
  rw [outer?, Array.getElem?_eq_none (Nat.le_of_not_lt hi)] at h
  simp at h

theorem lt_size_of_value? (h : s.value? i x = some v) : i < s.scopes.size := by
  by_contra hi
  rw [value?, record?_eq_none_iff.2 (Nat.le_of_not_lt hi)] at h
  simp at h

theorem lt_size_of_binds (h : s.binds i x = true) : i < s.scopes.size := by
  rw [binds_eq] at h
  obtain ⟨v, hv⟩ := Option.isSome_iff_exists.1 h
  exact lt_size_of_value? hv

/-! ## Binding a name -/

theorem getElem?_bind (s : Store) (i : ScopeId) (x : String) (v : Value) (j : ScopeId) :
    (s.bind i x v).scopes[j]? =
      if i = j then s.scopes[j]?.map fun c => { c with record := c.record.bind x v }
      else s.scopes[j]? := by
  simp only [bind, Array.getElem?_modify]

/-- In a scope that binds the name, giving it another value is binding it again. -/
theorem set_eq_bind (h : s.binds i x = true) (v : Value) : s.set i x v = s.bind i x v := by
  refine congrArg (Store.mk · s.nextIdentity) (Array.ext_getElem? fun j => ?_)
  simp only [Array.getElem?_modify]
  split
  · next hij =>
    subst hij
    cases hc : s.scopes[i]? with
    | none => rfl
    | some c =>
      have hhas : c.record.has x = true := by simpa [binds, record?, hc] using h
      rw [Option.map_some, Option.map_some, Record.set?_eq, if_pos hhas]
      rfl
  · rfl

@[simp]
theorem size_bind (s : Store) (i : ScopeId) (x : String) (v : Value) :
    (s.bind i x v).scopes.size = s.scopes.size := by
  simp [bind]

@[simp]
theorem nextIdentity_bind (s : Store) (i : ScopeId) (x : String) (v : Value) :
    (s.bind i x v).nextIdentity = s.nextIdentity := rfl

@[simp]
theorem outer?_bind (s : Store) (i : ScopeId) (x : String) (v : Value) (j : ScopeId) :
    (s.bind i x v).outer? j = s.outer? j := by
  unfold outer?
  rw [getElem?_bind]
  split <;> cases s.scopes[j]? <;> rfl

@[simp]
theorem policy_bind (s : Store) (i : ScopeId) (x : String) (v : Value) (j : ScopeId) :
    (s.bind i x v).policy j = s.policy j := by
  unfold policy
  rw [getElem?_bind]
  split <;> cases s.scopes[j]? <;> rfl

@[simp]
theorem function?_bind (s : Store) (i : ScopeId) (x : String) (v : Value) (j : ScopeId) :
    (s.bind i x v).function? j = s.function? j := by
  unfold function? record?
  rw [getElem?_bind]
  split
  · cases s.scopes[j]? with
    | none => rfl
    | some c => exact c.record.function?_bind x v
  · rfl

theorem value?_bind (s : Store) (i : ScopeId) (x : String) (v : Value) (j : ScopeId) (y : String) :
    (s.bind i x v).value? j y =
      if i = j ∧ x = y ∧ j < s.scopes.size then some v else s.value? j y := by
  unfold value? record?
  rw [getElem?_bind]
  by_cases hj : j < s.scopes.size
  · simp only [Array.getElem?_eq_getElem hj]
    by_cases hi : i = j <;> by_cases hx : x = y <;> simp [hi, hx, hj]
  · rw [Array.getElem?_eq_none (Nat.le_of_not_lt hj)]
    simp [hj]

theorem binds_bind (s : Store) (i : ScopeId) (x : String) (v : Value) (j : ScopeId) (y : String) :
    (s.bind i x v).binds j y = (decide (i = j ∧ x = y ∧ j < s.scopes.size) || s.binds j y) := by
  rw [binds_eq, binds_eq, value?_bind]
  split <;> simp [*]

/-- Binding a name that the scope binds already changes no scope's names. -/
theorem binds_bind_of_binds (h : s.binds i x = true) (j : ScopeId) (y : String) :
    (s.bind i x v).binds j y = s.binds j y := by
  rw [binds_bind]
  by_cases hj : i = j ∧ x = y ∧ j < s.scopes.size
  · obtain ⟨rfl, rfl, -⟩ := hj
    simp [h]
  · simp [hj]

/-! ## Opening a scope -/

theorem getElem?_openInside (s : Store) (i : ScopeId) (k : ScopeKind) (j : ScopeId) :
    (s.openInside i k).scopes[j]? =
      if j = s.scopes.size then some ⟨some i, s.policy i, .empty k⟩ else s.scopes[j]? := by
  simp only [openInside, push, Array.getElem?_push]

@[simp]
theorem size_openInside (s : Store) (i : ScopeId) (k : ScopeKind) :
    (s.openInside i k).scopes.size = s.scopes.size + 1 := by
  simp [openInside, push]

@[simp]
theorem nextIdentity_openInside (s : Store) (i : ScopeId) (k : ScopeKind) :
    (s.openInside i k).nextIdentity = s.nextIdentity := rfl

theorem outer?_openInside (s : Store) (i : ScopeId) (k : ScopeKind) (j : ScopeId) :
    (s.openInside i k).outer? j = if j = s.scopes.size then some i else s.outer? j := by
  unfold outer?
  rw [getElem?_openInside]
  split <;> rfl

theorem policy_openInside (s : Store) (i : ScopeId) (k : ScopeKind) (j : ScopeId) :
    (s.openInside i k).policy j = if j = s.scopes.size then s.policy i else s.policy j := by
  unfold policy
  rw [getElem?_openInside]
  split <;> rfl

theorem function?_openInside (s : Store) (i : ScopeId) (k : ScopeKind) (j : ScopeId) :
    (s.openInside i k).function? j =
      if j = s.scopes.size then (Record.empty k).function? else s.function? j := by
  unfold function? record?
  rw [getElem?_openInside]
  split <;> rfl

/-- A scope that was just opened binds nothing, and the others what they bound before. -/
@[simp]
theorem value?_openInside (s : Store) (i : ScopeId) (k : ScopeKind) (j : ScopeId) (x : String) :
    (s.openInside i k).value? j x = s.value? j x := by
  unfold value? record?
  rw [getElem?_openInside]
  split
  · next h => simp [h]
  · rfl

@[simp]
theorem binds_openInside (s : Store) (i : ScopeId) (k : ScopeKind) (j : ScopeId) (x : String) :
    (s.openInside i k).binds j x = s.binds j x := by
  simp [binds_eq]

/-! ## Opening a root -/

theorem getElem?_openRoot (s : Store) (p : Redeclaration) (j : ScopeId) :
    (s.openRoot p).scopes[j]? =
      if j = s.scopes.size then some ⟨none, p, .empty .block⟩ else s.scopes[j]? := by
  simp only [openRoot, push, Array.getElem?_push]

@[simp]
theorem size_openRoot (s : Store) (p : Redeclaration) :
    (s.openRoot p).scopes.size = s.scopes.size + 1 := by
  simp [openRoot, push]

theorem outer?_openRoot (s : Store) (p : Redeclaration) (j : ScopeId) :
    (s.openRoot p).outer? j = if j = s.scopes.size then none else s.outer? j := by
  unfold outer?
  rw [getElem?_openRoot]
  split <;> rfl

theorem policy_openRoot (s : Store) (p : Redeclaration) (j : ScopeId) :
    (s.openRoot p).policy j = if j = s.scopes.size then p else s.policy j := by
  unfold policy
  rw [getElem?_openRoot]
  split <;> rfl

theorem function?_openRoot (s : Store) (p : Redeclaration) (j : ScopeId) :
    (s.openRoot p).function? j = if j = s.scopes.size then none else s.function? j := by
  unfold function? record?
  rw [getElem?_openRoot]
  split <;> rfl

@[simp]
theorem value?_openRoot (s : Store) (p : Redeclaration) (j : ScopeId) (x : String) :
    (s.openRoot p).value? j x = s.value? j x := by
  unfold value? record?
  rw [getElem?_openRoot]
  split
  · next h => simp [h]
  · rfl

/-! ## Handing out an identity -/

@[simp]
theorem scopes_takeIdentity (s : Store) : s.takeIdentity.scopes = s.scopes := rfl

@[simp]
theorem nextIdentity_takeIdentity (s : Store) : s.takeIdentity.nextIdentity = s.nextIdentity + 1 :=
  rfl

@[simp]
theorem outer?_takeIdentity (s : Store) : s.takeIdentity.outer? = s.outer? := rfl

@[simp]
theorem policy_takeIdentity (s : Store) : s.takeIdentity.policy = s.policy := rfl

@[simp]
theorem function?_takeIdentity (s : Store) : s.takeIdentity.function? = s.function? := rfl

@[simp]
theorem value?_takeIdentity (s : Store) : s.takeIdentity.value? = s.value? := rfl

@[simp]
theorem binds_takeIdentity (s : Store) : s.takeIdentity.binds = s.binds := rfl

/-! ## Chains -/

theorem le_of_mem_chain (h : j ∈ s.chain i) : j ≤ i := by
  fun_induction chain s i with
  | case1 i ho => simp_all
  | case2 i o ho hlt ih =>
    rcases List.mem_cons.1 h with rfl | h
    · exact le_refl _
    · exact (ih h).trans hlt.le
  | case3 i o ho hlt => simp_all

/-- A set of scopes that is closed under outer links has the chains of its scopes inside. -/
theorem mem_chain_of_closed {P : ScopeId → Prop} (hP : ∀ {i o}, P i → s.outer? i = some o → P o)
    (hi : P i) (h : j ∈ s.chain i) : P j := by
  fun_induction chain s i with
  | case1 i ho => simp_all
  | case2 i o ho hlt ih =>
    rcases List.mem_cons.1 h with rfl | h
    · exact hi
    · exact ih (hP hi ho) h
  | case3 i o ho hlt => simp_all

/-- A chain is fixed by the outer links of its scopes. -/
theorem chain_congr (i : ScopeId) (h : ∀ j ∈ s.chain i, t.outer? j = s.outer? j) :
    t.chain i = s.chain i := by
  fun_induction chain s i with
  | case1 i ho =>
    rw [chain, h i (by simp), ho]
  | case2 i o ho hlt ih =>
    rw [chain, h i (by simp), ho]
    simp only [hlt, if_true]
    rw [ih fun j hj => h j (List.mem_cons_of_mem _ hj)]
  | case3 i o ho hlt =>
    rw [chain, h i (by simp), ho]
    simp only [hlt, if_false]

theorem resolve?_congr (i : ScopeId) (h : ∀ j ∈ s.chain i, t.outer? j = s.outer? j)
    (hb : ∀ j ∈ s.chain i, t.binds j x = s.binds j x) : t.resolve? i x = s.resolve? i x := by
  rw [resolve?, resolve?, chain_congr i h]
  exact List.find?_congr hb

theorem binds_of_resolve? (h : s.resolve? i x = some j) : s.binds j x = true := by
  simpa using List.find?_some h

/-- An assignment binds the name again in the scope that it refers to. -/
theorem assign_eq (s : Store) (i : ScopeId) (x : String) (v : Value) :
    s.assign i x v =
      (s.resolve? i x).elim (.error (.undefinedVariable x)) fun j => .ok (s.bind j x v) := by
  rw [assign]
  cases hj : s.resolve? i x with
  | none => rfl
  | some j => exact congrArg Except.ok (set_eq_bind (binds_of_resolve? hj) v)

theorem mem_chain_of_resolve? (h : s.resolve? i x = some j) : j ∈ s.chain i :=
  List.mem_of_find?_eq_some h

/-- A name refers to the scope itself if that binds it. -/
theorem resolve?_self (h : s.binds i x = true) : s.resolve? i x = some i := by
  rw [resolve?, chain]
  split
  · simp [h]
  · split <;> simp [h]

theorem isSome_resolve? : (s.resolve? i x).isSome ↔ ∃ j ∈ s.chain i, s.binds j x = true := by
  simp [resolve?, List.find?_isSome]

/-! ## Growth -/

/-- What stays while a store grows. -/
structure Grows (s t : Store) : Prop where
  size_le : s.scopes.size ≤ t.scopes.size
  identity_le : s.nextIdentity ≤ t.nextIdentity
  outer? : ∀ {i}, i < s.scopes.size → t.outer? i = s.outer? i
  policy : ∀ {i}, i < s.scopes.size → t.policy i = s.policy i
  function? : ∀ {i}, i < s.scopes.size → t.function? i = s.function? i
  binds : ∀ {i x}, s.binds i x = true → t.binds i x = true

namespace Grows

protected theorem refl (s : Store) : s.Grows s :=
  ⟨le_refl _, le_refl _, fun _ => rfl, fun _ => rfl, fun _ => rfl, fun h => h⟩

protected theorem trans (h : s.Grows t) (h' : t.Grows u) : s.Grows u where
  size_le := h.size_le.trans h'.size_le
  identity_le := h.identity_le.trans h'.identity_le
  outer? hi := (h'.outer? (hi.trans_le h.size_le)).trans (h.outer? hi)
  policy hi := (h'.policy (hi.trans_le h.size_le)).trans (h.policy hi)
  function? hi := (h'.function? (hi.trans_le h.size_le)).trans (h.function? hi)
  binds hb := h'.binds (h.binds hb)

theorem chain (h : s.Grows t) (hi : i < s.scopes.size) : t.chain i = s.chain i :=
  chain_congr i fun _ hj => h.outer? ((le_of_mem_chain hj).trans_lt hi)

/-- A name that resolves from a scope goes on to do so. -/
theorem isSome_resolve? (h : s.Grows t) (hx : (s.resolve? i x).isSome) :
    (t.resolve? i x).isSome := by
  obtain ⟨j, hj, hb⟩ := Store.isSome_resolve?.1 hx
  refine Store.isSome_resolve?.2 ⟨j, ?_, h.binds hb⟩
  by_cases hi : i < s.scopes.size
  · rwa [h.chain hi]
  · -- a scope that does not exist is its own chain and binds nothing
    have ho : s.outer? i = none := by
      rw [Store.outer?, Array.getElem?_eq_none (Nat.le_of_not_lt hi)]
      rfl
    rw [Store.chain, ho] at hj
    obtain rfl : j = i := by simpa using hj
    exact absurd (lt_size_of_binds hb) hi

end Grows

theorem grows_bind (s : Store) (i : ScopeId) (x : String) (v : Value) :
    s.Grows (s.bind i x v) where
  size_le := by simp
  identity_le := le_refl _
  outer? _ := by simp
  policy _ := by simp
  function? _ := by simp
  binds h := by simp [binds_bind, h]

theorem grows_openInside (s : Store) (i : ScopeId) (k : ScopeKind) :
    s.Grows (s.openInside i k) where
  size_le := by simp
  identity_le := le_refl _
  outer? hj := by rw [outer?_openInside, if_neg hj.ne]
  policy hj := by rw [policy_openInside, if_neg hj.ne]
  function? hj := by rw [function?_openInside, if_neg hj.ne]
  binds h := by simpa using h

theorem grows_openRoot (s : Store) (p : Redeclaration) : s.Grows (s.openRoot p) where
  size_le := by simp
  identity_le := le_refl _
  outer? hj := by rw [outer?_openRoot, if_neg hj.ne]
  policy hj := by rw [policy_openRoot, if_neg hj.ne]
  function? hj := by rw [function?_openRoot, if_neg hj.ne]
  binds h := by simpa [binds_eq] using h

theorem grows_takeIdentity (s : Store) : s.Grows s.takeIdentity where
  size_le := le_refl _
  identity_le := Nat.le_succ _
  outer? _ := rfl
  policy _ := rfl
  function? _ := rfl
  binds h := h

end Store

end Scoped
