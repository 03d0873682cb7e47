import Mathlib.Data.List.Count
import Scoped.Proofs.Evaluation
import Scoped.Proofs.Parameters

/-!
# Counters

`makeCounter` declares a variable and returns a function that adds one to it and prints it. The
variable lives in the scope of a call that has returned. `Store.Counting` is the invariant : each
counter has a scope of its own, which no other counter captures, and the variable there is the
number of calls of that counter so far.

`Due.step` says of each statement of such a program what it prints and that the invariant holds
again, `Due.run` says it of statements one after the other, and `Due.executeAll` of programs.
So `Program.counters_count` holds for all counters, calls in any order, and any division of the
program into runs.
-/

namespace Scoped

/-- A call of a function without parameters is its body, in a new scope inside the captured one. -/
theorem Host.call_of_params_nil {host : Host} {n : Nat} {d : FunctionDef} {k : ScopeId}
    {m : Machine} (hd : d.params = []) (hdepth : m.depth < m.config.maxCallDepth) :
    host.call (.closure n d k) [] m =
      ((Ending.leaving m.scope (Stmt.execAll host.call d.body
        ⟨m.store.openInside k (.call d.name?), m.store.nextScope, m.config, m.depth + 1,
          m.printed⟩)).ofBody).fromCall := by
  have harity : ([] : List Value).length = d.arity := by rw [FunctionDef.arity, hd]; rfl
  have hstart : d.start k [] m.deeper =
      .ok () { m.deeper with store := m.store.openInside k (.call d.name?) } := by
    rw [FunctionDef.start, hd]
    rfl
  rw [host.call_eq_run_planCall, Host.planCall_of_start harity hdepth hstart]
  rfl

/-! ## The functions and the statements -/

/-- `fn count() { i = i + 1; print i; }` -/
def FunctionDef.count : FunctionDef :=
  .mk .nowhere (some ⟨"count", .nowhere⟩) [] .nowhere [
    .expr .nowhere (.assign .nowhere ⟨"i", .nowhere⟩ (.binary .nowhere .add
      (.ident ⟨"i", .nowhere⟩) (.literal .nowhere (.number (.int 1))))),
    .print .nowhere (.ident ⟨"i", .nowhere⟩)]

/-- `fn makeCounter() { let i = 0; fn count() { i = i + 1; print i; } return count; }` -/
def FunctionDef.makeCounter : FunctionDef :=
  .mk .nowhere (some ⟨"makeCounter", .nowhere⟩) [] .nowhere [
    .bind .nowhere ⟨"i", .nowhere⟩ (some (.literal .nowhere (.number (.int 0)))),
    .function .count,
    .ret .nowhere (some (.ident ⟨"count", .nowhere⟩))]

/-- `let x = makeCounter();` -/
def Stmt.definesCounter (x : String) : Stmt :=
  .bind .nowhere ⟨x, .nowhere⟩ (some (.call .nowhere (.ident ⟨"makeCounter", .nowhere⟩) []))

/-- `x();` -/
def Stmt.callsCounter (x : String) : Stmt :=
  .expr .nowhere (.call .nowhere (.ident ⟨x, .nowhere⟩) [])

/-- The value of a counter that was called so many times. -/
def Value.tally (n : Nat) : Value := .number (.int (.ofNat n))

theorem Value.render_tally {n : Nat} (hn : n < 2 ^ 63) : (Value.tally n).render = toString n := by
  simp only [tally, render, Number.render, Int64.toInt_ofNat_of_lt hn]
  rfl

theorem BinaryOp.add_tally {n : Nat} (hn : n + 1 < 2 ^ 63) :
    BinaryOp.add.apply (.tally n) (.number (.int 1)) = .ok (.tally (n + 1)) := by
  have hint : (Int64.ofNat n).toInt + Int64.toInt 1 = ((n + 1 : Nat) : Int) := by
    rw [Int64.toInt_ofNat_of_lt (Nat.lt_of_succ_lt hn), show Int64.toInt 1 = 1 from rfl]
    rfl
  have hmin : Int64.minValue.toInt ≤ ((n + 1 : Nat) : Int) :=
    (by decide : Int64.minValue.toInt ≤ 0).trans (Int.natCast_nonneg _)
  have hmax : ((n + 1 : Nat) : Int) ≤ Int64.maxValue.toInt := by
    have hvalue : Int64.maxValue.toInt = 2 ^ 63 - 1 := by decide
    rw [hvalue]
    omega
  have hadd : Number.add (.int (.ofNat n)) (.int 1) = .ok (.int (.ofNat (n + 1))) := by
    simp only [Number.add, Number.combine, Number.exactly, hint, Number.ofInt?]
    rw [if_pos ⟨hmin, hmax⟩, Int64.ofInt_eq_ofNat]
  simp only [apply, sum, arithmetic, Value.tally, hadd, outcome]

namespace Store

variable {s : Store} {i j k g : ScopeId} {x y : String} {v : Value} {n : Nat}

theorem value?_nextScope (s : Store) (x : String) : s.value? s.nextScope x = none := by
  have hnone : s.record? s.nextScope = none := record?_eq_none_iff.2 (Nat.le_refl _)
  rw [value?, hnone]
  rfl

theorem value?_bind_self (hi : i < s.scopes.size) : (s.bind i x v).value? i x = some v := by
  rw [value?_bind, if_pos ⟨rfl, rfl, hi⟩]

theorem value?_bind_of_ne (h : i ≠ j ∨ x ≠ y) : (s.bind i x v).value? j y = s.value? j y := by
  rw [value?_bind, if_neg]
  rintro ⟨hij, hxy, -⟩
  exact h.elim (· hij) (· hxy)

/-- The store after a call of `makeCounter` that was made in the scope `k`. -/
def withCounter (s : Store) (k : ScopeId) : Store :=
  ((s.openInside k (.call (some "makeCounter"))).bind s.nextScope "i" (.tally 0)).takeIdentity.bind
    s.nextScope "count" (.function (.closure s.nextIdentity .count s.nextScope))

theorem size_withCounter (s : Store) (k : ScopeId) :
    (s.withCounter k).scopes.size = s.scopes.size + 1 := by
  simp [withCounter]

theorem value?_withCounter (s : Store) (k : ScopeId) :
    (s.withCounter k).value? s.nextScope "i" = some (.tally 0) := by
  rw [withCounter, value?_bind_of_ne (.inr (by decide)), value?_takeIdentity]
  exact value?_bind_self (by simp [nextScope])

theorem value?_withCounter_of_ne (hj : s.nextScope ≠ j) (k : ScopeId) (x : String) :
    (s.withCounter k).value? j x = s.value? j x := by
  rw [withCounter, value?_bind_of_ne (.inl hj), value?_takeIdentity, value?_bind_of_ne (.inl hj),
    value?_openInside]

theorem policy_withCounter (hi : i < s.scopes.size) (k : ScopeId) :
    (s.withCounter k).policy i = s.policy i := by
  rw [withCounter, policy_bind, policy_takeIdentity, policy_bind, policy_openInside, if_neg hi.ne]

/-- The store after a call of a counter that has counted up to `n` in the scope `g`. -/
def withTally (s : Store) (g : ScopeId) (n : Nat) : Store :=
  (s.openInside g (.call (some "count"))).bind g "i" (.tally n)

theorem refuses_of_value?_eq_none (h : s.value? i x = none) : s.refuses i x = false := by
  rw [refuses, binds_eq, h]
  simp

end Store

/-! ## What calls do -/

section

variable {host : Host} {m : Machine}

/-- A call of `makeCounter` returns a new counter, whose variable is zero. -/
theorem Host.call_makeCounter (hdepth : m.depth < m.config.maxCallDepth) (n : Nat) (k : ScopeId) :
    host.call (.closure n .makeCounter k) [] m =
      .ok (.function (.closure m.store.nextIdentity .count m.store.nextScope))
        { m with store := m.store.withCounter k } := by
  have hbody : Stmt.execAll host.call FunctionDef.makeCounter.body
      ⟨m.store.openInside k (.call (some "makeCounter")), m.store.nextScope, m.config, m.depth + 1,
        m.printed⟩ =
      .ok (.returned (.function (.closure m.store.nextIdentity .count m.store.nextScope)))
        ⟨m.store.withCounter k, m.store.nextScope, m.config, m.depth + 1, m.printed⟩ := by
    refine (Stmt.execAll_cons_of_normal (Stmt.exec_bind_of_ok (Expr.eval_literal _) ?_)).trans ?_
    · refine Store.refuses_of_value?_eq_none ?_
      rw [Store.value?_openInside, Store.value?_nextScope]
    refine (Stmt.execAll_cons_of_normal (Stmt.exec_function_of_ok rfl ?_)).trans ?_
    · refine Store.refuses_of_value?_eq_none ?_
      rw [Store.value?_bind_of_ne (.inr (by decide)), Store.value?_openInside,
        Store.value?_nextScope]
    refine Stmt.execAll_cons_of_returned (Stmt.exec_ret_of_ok (Expr.eval_ident_of_value? ?_))
    exact Store.value?_bind_self (by simp [Store.nextScope])
  refine (Host.call_of_params_nil rfl hdepth).trans ?_
  rw [show FunctionDef.makeCounter.name? = some "makeCounter" from rfl, hbody]
  rfl

/-- From a scope that was opened inside that of a counter, its variable is found. -/
theorem Store.resolve?_tally {t : Store} {f g : ScopeId} {v : Value} (hgf : g < f)
    (hnone : t.value? f "i" = none) (houter : t.outer? f = some g)
    (hv : t.value? g "i" = some v) : t.resolve? f "i" = some g := by
  rw [resolve?_outward (by rw [binds_eq, hnone]; rfl) houter hgf]
  exact resolve?_self (by rw [binds_eq, hv]; rfl)

/-- A call of a counter adds one to its variable, and prints it. -/
theorem Host.call_count {g : ScopeId} {c : Nat} (hdepth : m.depth < m.config.maxCallDepth)
    (hc : c + 1 < 2 ^ 63) (hg : m.store.value? g "i" = some (.tally c)) (n : Nat) :
    host.call (.closure n .count g) [] m =
      .ok .nil { m with store := m.store.withTally g (c + 1),
                        printed := m.printed.push (toString (c + 1)) } := by
  have hlt : g < m.store.nextScope := Store.lt_size_of_value? hg
  have hfree :
      (m.store.openInside g (.call (some "count"))).value? m.store.nextScope "i" = none := by
    rw [Store.value?_openInside, Store.value?_nextScope]
  have houter : (m.store.openInside g (.call (some "count"))).outer? m.store.nextScope = some g :=
    (Store.outer?_openInside ..).trans (if_pos rfl)
  have hvalue : (m.store.openInside g (.call (some "count"))).value? g "i" = some (.tally c) := by
    rw [Store.value?_openInside, hg]
  have hvalue' : (m.store.withTally g (c + 1)).value? g "i" = some (.tally (c + 1)) := by
    refine Store.value?_bind_self ?_
    rw [Store.size_openInside]
    exact Nat.lt_succ_of_lt hlt
  have hfirst := Store.resolve?_tally hlt hfree houter hvalue
  have hsecond := Store.resolve?_tally (t := m.store.withTally g (c + 1)) hlt
    (by rw [Store.withTally, Store.value?_bind_of_ne (.inl hlt.ne), hfree])
    (by rw [Store.withTally, Store.outer?_bind, houter]) hvalue'
  have hbody : Stmt.execAll host.call FunctionDef.count.body
      ⟨m.store.openInside g (.call (some "count")), m.store.nextScope, m.config, m.depth + 1,
        m.printed⟩ =
      .ok .normal ⟨m.store.withTally g (c + 1), m.store.nextScope, m.config, m.depth + 1,
        m.printed.push (toString (c + 1))⟩ := by
    refine (Stmt.execAll_cons_of_normal (Stmt.exec_expr_of_ok (Expr.eval_assign_of_ok
      (Expr.eval_binary_of_ok (Expr.eval_ident_of_resolve? hfirst hvalue) (Expr.eval_literal _)
        (BinaryOp.add_tally hc)) hfirst))).trans ?_
    have hread : (Expr.ident ⟨"i", .nowhere⟩).eval host.call ⟨m.store.withTally g (c + 1),
        m.store.nextScope, m.config, m.depth + 1, m.printed⟩ =
          .ok (.tally (c + 1)) ⟨m.store.withTally g (c + 1), m.store.nextScope, m.config,
            m.depth + 1, m.printed⟩ :=
      Expr.eval_ident_of_resolve? hsecond hvalue'
    refine (Stmt.execAll_cons_of_normal (Stmt.exec_print_of_ok hread)).trans ?_
    rw [Value.render_tally hc, Stmt.execAll]
    rfl
  refine (Host.call_of_params_nil rfl hdepth).trans ?_
  rw [show FunctionDef.count.name? = some "count" from rfl, hbody]
  rfl

variable {config : Config} {s : Store} {i g : ScopeId} {x : String} {n c : Nat}
  {printed : Array String}

theorem Stmt.exec_definesCounter (hdepth : 0 < config.maxCallDepth)
    (hmaker : s.value? i "makeCounter" = some (.function (.closure n .makeCounter i)))
    (hx : (s.withCounter i).refuses i x = false) :
    (Stmt.definesCounter x).exec host.call ⟨s, i, config, 0, printed⟩ =
      .ok .normal ⟨(s.withCounter i).bind i x (.function (.closure s.nextIdentity .count
        s.nextScope)), i, config, 0, printed⟩ :=
  Stmt.exec_bind_of_ok (Expr.eval_call_of_ok (Expr.eval_ident_of_value? hmaker)
    (Host.call_makeCounter hdepth n i)) hx

theorem Stmt.exec_callsCounter (hdepth : 0 < config.maxCallDepth) (hc : c + 1 < 2 ^ 63)
    (hx : s.value? i x = some (.function (.closure n .count g)))
    (hg : s.value? g "i" = some (.tally c)) :
    (Stmt.callsCounter x).exec host.call ⟨s, i, config, 0, printed⟩ =
      .ok .normal ⟨s.withTally g (c + 1), i, config, 0, printed.push (toString (c + 1))⟩ :=
  Stmt.exec_expr_of_ok (Expr.eval_call_of_ok (Expr.eval_ident_of_value? hx)
    (Host.call_count hdepth hc hg n))

end

/-! ## The invariant -/

namespace Store

variable {s t : Store} {i g : ScopeId} {x : String} {v : Value} {n : Nat}
  {defined past : List String}

/-- The counters of the names `defined` were called as `past` lists it. Each has a variable in a
scope of its own, and `makeCounter` can be called from the scope that binds them. -/
structure Counting (s : Store) (i : ScopeId) (defined past : List String) : Prop where
  lt_size : i < s.scopes.size
  maker : ∃ n, s.value? i "makeCounter" = some (.function (.closure n .makeCounter i))
  counter : ∀ x ∈ defined, ∃ n g, s.value? i x = some (.function (.closure n .count g)) ∧ i ≠ g ∧
    s.value? g "i" = some (.tally (past.count x))
  apart : ∀ x ∈ defined, ∀ y ∈ defined,
    (s.value? i x).bind Value.captured? = (s.value? i y).bind Value.captured? → x = y

theorem refuses_congr (hp : t.policy i = s.policy i) (hv : t.value? i x = s.value? i x) :
    t.refuses i x = s.refuses i x := by
  rw [refuses, refuses, hp, binds_eq, binds_eq, hv]

/-- After the declaration of `makeCounter` there are no counters. -/
theorem counting_declared (hi : i < s.scopes.size) (n : Nat) :
    (s.takeIdentity.bind i "makeCounter" (.function (.closure n .makeCounter i))).Counting i
      [] [] where
  lt_size := by simpa using hi
  maker := ⟨n, value?_bind_self hi⟩
  counter := by simp
  apart := by simp

/-- A new counter has a scope of its own. -/
theorem Counting.define (h : s.Counting i defined past) (hx : x ∉ defined)
    (hmaker : x ≠ "makeCounter") (hpast : x ∉ past) (n : Nat) :
    ((s.withCounter i).bind i x (.function (.closure n .count s.nextScope))).Counting i
      (x :: defined) past := by
  have hlt : i < (s.withCounter i).scopes.size := by
    rw [size_withCounter]
    exact Nat.lt_succ_of_lt h.lt_size
  have hnew : s.nextScope ≠ i := h.lt_size.ne'
  have hself : ((s.withCounter i).bind i x (.function (.closure n .count s.nextScope))).value? i x =
      some (.function (.closure n .count s.nextScope)) := value?_bind_self hlt
  have hother : ∀ y, x ≠ y → ((s.withCounter i).bind i x
      (.function (.closure n .count s.nextScope))).value? i y = s.value? i y := by
    intro y hy
    rw [value?_bind_of_ne (.inr hy), value?_withCounter_of_ne hnew]
  -- the scopes of the counters that there were are older
  have hold : ∀ y ∈ defined, (s.value? i y).bind Value.captured? ≠ some s.nextScope := by
    intro y hy heq
    obtain ⟨n', g, hv, -, hg⟩ := h.counter y hy
    rw [hv] at heq
    obtain rfl : g = s.nextScope := Option.some.inj heq
    rw [value?_nextScope] at hg
    cases hg
  have hne : ∀ y ∈ defined, x ≠ y := fun y hy hxy => hx (hxy ▸ hy)
  refine ⟨by simpa using hlt, ?_, fun y hy => ?_, fun y hy z hz heq => ?_⟩
  · obtain ⟨n', hv⟩ := h.maker
    exact ⟨n', (hother _ hmaker).trans hv⟩
  · rcases List.mem_cons.1 hy with rfl | hy
    · refine ⟨n, s.nextScope, hself, hnew.symm, ?_⟩
      rw [value?_bind_of_ne (.inl hnew.symm), value?_withCounter, List.count_eq_zero.2 hpast]
    · obtain ⟨n', g, hv, hig, hg⟩ := h.counter y hy
      refine ⟨n', g, (hother y (hne y hy)).trans hv, hig, ?_⟩
      have hgs : s.nextScope ≠ g := (lt_size_of_value? hg).ne'
      rw [value?_bind_of_ne (.inl hig), value?_withCounter_of_ne hgs, hg]
  · rcases List.mem_cons.1 hy with rfl | hy' <;> rcases List.mem_cons.1 hz with rfl | hz'
    · rfl
    · rw [hself, hother z (hne z hz')] at heq
      exact absurd heq.symm (hold z hz')
    · rw [hself, hother y (hne y hy')] at heq
      exact absurd heq (hold y hy')
    · rw [hother y (hne y hy'), hother z (hne z hz')] at heq
      exact h.apart y hy' z hz' heq

/-- A call changes the variable of one counter. -/
theorem Counting.call (h : s.Counting i defined past) (hx : x ∈ defined)
    (hv : s.value? i x = some (.function (.closure n .count g))) (hig : i ≠ g)
    (hg : s.value? g "i" = some (.tally (past.count x))) :
    (s.withTally g (past.count x + 1)).Counting i defined (past ++ [x]) := by
  have hglt : g < s.scopes.size + 1 := Nat.lt_succ_of_lt (lt_size_of_value? hg)
  have hhere : ∀ y, (s.withTally g (past.count x + 1)).value? i y = s.value? i y := by
    intro y
    rw [withTally, value?_bind_of_ne (.inl hig.symm), value?_openInside]
  refine ⟨?_, ?_, fun y hy => ?_, fun y hy z hz heq => ?_⟩
  · simpa [withTally] using Nat.lt_succ_of_lt h.lt_size
  · simpa only [hhere] using h.maker
  · obtain ⟨n', g', hv', hig', hg'⟩ := h.counter y hy
    refine ⟨n', g', (hhere y).trans hv', hig', ?_⟩
    by_cases hxy : x = y
    · subst hxy
      obtain ⟨-, -, rfl⟩ : n = n' ∧ FunctionDef.count = .count ∧ g = g' := by
        simpa using hv.symm.trans hv'
      rw [List.count_append, List.count_singleton_self]
      exact value?_bind_self (by simpa using hglt)
    · -- another counter has its variable in another scope
      have hgg : g ≠ g' := by
        rintro rfl
        refine hxy (h.apart x hx y hy ?_)
        rw [hv, hv']
        rfl
      rw [withTally, value?_bind_of_ne (.inl hgg), value?_openInside, hg', List.count_append,
        List.count_singleton, if_neg (by simpa using hxy), Nat.add_zero]
  · rw [hhere, hhere] at heq
    exact h.apart y hy z hz heq

end Store

/-! ## Statements, one after the other -/

/-- The lines that calls of counters print after those of `past`. -/
def tallies (past : List String) : List String → List String
  | [] => []
  | x :: calls => toString (past.count x + 1) :: tallies (past ++ [x]) calls

theorem getElem?_tallies (past calls : List String) (t : Nat) :
    (tallies past calls)[t]? =
      calls[t]?.map fun x => toString ((past ++ calls.take (t + 1)).count x) := by
  induction calls generalizing past t with
  | nil => simp [tallies]
  | cons y calls ih =>
    cases t with
    | zero => simp [tallies]
    | succ t =>
      rw [tallies, List.getElem?_cons_succ, ih, List.getElem?_cons_succ, List.take_succ_cons,
        List.append_assoc, List.singleton_append]

theorem length_tallies (past calls : List String) :
    (tallies past calls).length = calls.length := by
  induction calls generalizing past with
  | nil => rfl
  | cons x calls ih => rw [tallies, List.length_cons, List.length_cons, ih]

/-- The statements that are still to be executed, and the lines that they are to print. -/
inductive Due (i : ScopeId) (s : Store) (ss : List Stmt) (lines : List String) : Prop
  /-- Nothing was executed yet. -/
  | fresh {names calls : List String} (hi : i < s.scopes.size)
    (hnames : ("makeCounter" :: names).Nodup)
    (hfree : ∀ x ∈ "makeCounter" :: names, s.refuses i x = false) (hcalls : ∀ x ∈ calls, x ∈ names)
    (hlength : calls.length < 2 ^ 63)
    (hss : ss = .function .makeCounter ::
      (names.map .definesCounter ++ calls.map .callsCounter))
    (hlines : lines = tallies [] calls)
  /-- Some counters are there, and others are to be made. -/
  | counting {defined names past calls : List String} (hcounting : s.Counting i defined past)
    (hnames : ("makeCounter" :: (defined ++ names)).Nodup)
    (hfree : ∀ x ∈ names, s.refuses i x = false) (hpast : ∀ x ∈ past, x ∈ defined)
    (hcalls : ∀ x ∈ calls, x ∈ defined ++ names) (hlength : past.length + calls.length < 2 ^ 63)
    (hss : ss = names.map .definesCounter ++ calls.map .callsCounter)
    (hlines : lines = tallies past calls)

namespace Due

variable {config : Config} {i : ScopeId} {s : Store} {st : Stmt} {as bs ss : List Stmt}
  {lines : List String}

theorem lines_eq_nil (h : Due i s [] lines) : lines = [] := by
  cases h with
  | fresh _ _ _ _ _ hss => cases hss
  | counting _ _ _ _ _ _ hss hlines =>
    obtain ⟨-, hcalls⟩ := List.append_eq_nil_iff.1 hss.symm
    rw [hlines, List.map_eq_nil_iff.1 hcalls]
    rfl

/-- The next statement completes, and prints what is due. -/
theorem step (h : Due i s (st :: ss) lines) (hdepth : 0 < config.maxCallDepth) (host : Host)
    (printed : Array String) : ∃ t printed' out rest,
      st.exec host.call ⟨s, i, config, 0, printed⟩ = .ok .normal ⟨t, i, config, 0, printed'⟩ ∧
      printed'.toList = printed.toList ++ out ∧ lines = out ++ rest ∧ Due i t ss rest := by
  cases h with
  | @fresh names calls hi hnames hfree hcalls hlength hss hlines =>
    obtain ⟨rfl, rfl⟩ := List.cons.inj hss
    obtain ⟨hmaker, hfree⟩ := List.forall_mem_cons.1 hfree
    refine ⟨_, printed, [], lines, Stmt.exec_function_of_ok rfl hmaker, by simp, rfl,
      .counting (Store.counting_declared hi _) hnames (fun x hx => ?_) (by simp) hcalls
        (by simpa using hlength) rfl hlines⟩
    have hne : "makeCounter" ≠ x := fun hx' => (List.nodup_cons.1 hnames).1 (hx' ▸ hx)
    rw [← hfree x hx]
    exact Store.refuses_congr (by simp) (by rw [Store.value?_bind_of_ne (.inr hne)]; rfl)
  | @counting defined names past calls hcounting hnames hfree hpast hcalls hlength hss hlines =>
    cases names with
    | cons x names =>
      obtain ⟨rfl, rfl⟩ := List.cons.inj hss
      obtain ⟨n, hvalue⟩ := hcounting.maker
      have hnames : ("makeCounter" :: (x :: defined ++ names)).Nodup :=
        (List.Perm.cons _ List.perm_middle).nodup hnames
      obtain ⟨hmaker, hdistinct⟩ := List.nodup_cons.1 hnames
      obtain ⟨hmaker, -⟩ := List.ne_and_not_mem_of_not_mem_cons hmaker
      obtain ⟨hx, -⟩ := List.nodup_cons.1 hdistinct
      have hrefuses : ∀ y ∈ x :: names, (s.withCounter i).refuses i y = false := by
        intro y hy
        rw [← hfree y hy]
        exact Store.refuses_congr (Store.policy_withCounter hcounting.lt_size i)
          (Store.value?_withCounter_of_ne hcounting.lt_size.ne' i y)
      refine ⟨_, printed, [], lines,
        Stmt.exec_definesCounter hdepth hvalue (hrefuses x (List.mem_cons_self ..)), by simp, rfl,
        .counting (hcounting.define (fun h => hx (List.mem_append_left _ h)) hmaker.symm
          (fun h => hx (List.mem_append_left _ (hpast x h))) _) hnames (fun y hy => ?_)
          (fun y hy => List.mem_cons_of_mem _ (hpast y hy))
          (fun y hy => List.perm_middle.mem_iff.1 (hcalls y hy)) hlength rfl hlines⟩
      have hne : x ≠ y := fun hxy => hx (hxy ▸ List.mem_append_right _ hy)
      rw [← hrefuses y (List.mem_cons_of_mem _ hy)]
      exact Store.refuses_congr (by simp) (Store.value?_bind_of_ne (.inr hne))
    | nil =>
      cases calls with
      | nil => cases hss
      | cons x calls =>
        obtain ⟨rfl, rfl⟩ := List.cons.inj hss
        have hx : x ∈ defined := by simpa using hcalls x (List.mem_cons_self ..)
        obtain ⟨n, g, hv, hig, hg⟩ := hcounting.counter x hx
        have hc : past.count x + 1 < 2 ^ 63 := by
          have hcount : past.count x ≤ past.length := List.count_le_length
          rw [List.length_cons] at hlength
          omega
        refine ⟨_, _, [toString (past.count x + 1)], tallies (past ++ [x]) calls,
          Stmt.exec_callsCounter hdepth hc hv hg, Array.toList_push, hlines,
          .counting (hcounting.call hx hv hig hg) hnames (by simp) (fun y hy => ?_)
            (fun y hy => hcalls y (List.mem_cons_of_mem _ hy)) ?_ rfl rfl⟩
        · rcases List.mem_append.1 hy with hy | hy
          · exact hpast y hy
          · exact List.mem_singleton.1 hy ▸ hx
        · rw [List.length_append, List.length_singleton]
          rw [List.length_cons] at hlength
          omega

/-- Statements complete one after the other, and print what is due. -/
theorem run (h : Due i s (as ++ bs) lines) (hdepth : 0 < config.maxCallDepth) (host : Host)
    (printed : Array String) : ∃ t printed' out rest,
      Stmt.execAll host.call as ⟨s, i, config, 0, printed⟩ =
        .ok .normal ⟨t, i, config, 0, printed'⟩ ∧
      printed'.toList = printed.toList ++ out ∧ lines = out ++ rest ∧ Due i t bs rest := by
  induction as generalizing s printed lines with
  | nil => exact ⟨s, printed, [], lines, by rw [Stmt.execAll]; rfl, by simp, rfl, h⟩
  | cons st as ih =>
    obtain ⟨t₁, printed₁, out₁, rest₁, hexec, hprinted₁, rfl, hdue₁⟩ := h.step hdepth host printed
    obtain ⟨t, printed', out, rest, hexecAll, hprinted, rfl, hdue⟩ := ih hdue₁ printed₁
    refine ⟨t, printed', out₁ ++ out, rest, (Stmt.execAll_cons_of_normal hexec).trans hexecAll, ?_,
      (List.append_assoc ..).symm, hdue⟩
    rw [hprinted, hprinted₁, List.append_assoc]

end Due

/-! ## Programs, one after the other -/

/-- What runs one after the other gave. -/
structure Runs where
  results : List (Except Error (Option Value))
  store : Store
  printed : Array String

/-- Executes programs in a scope, each in the store that the one before it left. -/
def Program.executeAll (config : Config) (i : ScopeId) :
    List (Host × Program) → Store → Array String → Runs
  | [], s, printed => ⟨[], s, printed⟩
  | (host, p) :: ps, s, printed =>
    let run := p.execute host config s i printed
    let runs := executeAll config i ps run.store run.printed
    ⟨run.result :: runs.results, runs.store, runs.printed⟩

/-- Programs whose statements are due, but for spans, complete and print what is due. -/
theorem Due.executeAll {config : Config} {i : ScopeId} {s t : Store} {lines : List String}
    {ps : List (Host × Program)} (hst : s.EqErased t)
    (h : Due i s (Stmt.eraseAll (ps.flatMap fun p => p.2.body)) lines)
    (hdepth : 0 < config.maxCallDepth) (printed : Array String) :
    (∀ r ∈ (Program.executeAll config i ps t printed).results, r = .ok none) ∧
      (Program.executeAll config i ps t printed).printed.toList = printed.toList ++ lines := by
  induction ps generalizing s t printed lines with
  | nil =>
    rw [h.lines_eq_nil]
    exact ⟨by simp [Program.executeAll], by simp [Program.executeAll]⟩
  | cons p ps ih =>
    rw [List.flatMap_cons, Stmt.eraseAll_append] at h
    obtain ⟨s', printed', out, rest, hexec, hprinted, rfl, hdue⟩ :=
      h.run hdepth p.1 printed
    have hrun : p.2.erase.execute p.1 config s i printed = ⟨.ok none, s', printed'⟩ := by
      rw [Program.execute_eq]
      exact congrArg Run.ofEnding hexec
    have herase : p.2.erase = p.2.erase.erase := by
      rw [Program.erase, Program.erase, Stmt.eraseAll_eraseAll]
    have heq := Program.execute_erase herase p.1 config hst i printed
    rw [hrun] at heq
    obtain ⟨hresults, hlines⟩ := ih heq.store hdue (p.2.execute p.1 config t i printed).printed
    refine ⟨List.forall_mem_cons.2 ⟨heq.result_eq_none rfl, hresults⟩, hlines.trans ?_⟩
    rw [heq.printed, hprinted, List.append_assoc]

/-! ## The main result -/

/-- Declares `makeCounter`, makes a counter for each name, and calls counters in some order. -/
def Stmt.counters (names : List String) (js : List (Fin names.length)) : List Stmt :=
  .function .makeCounter ::
    (names.map .definesCounter ++ js.map fun j => .callsCounter (names.get j))

/-- Counters count. A program that declares `makeCounter`, makes counters for different names and
calls them in any order is divided into programs in any way, and these are executed one after the
other, in a scope that does not refuse the names : a new one, or one whose names may be declared
again. Then no run fails, and there is one line for each call, with the number of times that this
counter was called up to there. -/
theorem Program.counters_count {names : List String} (hnames : ("makeCounter" :: names).Nodup)
    {config : Config} (hdepth : 1 ≤ config.maxCallDepth) {s : Store} {i : ScopeId}
    (hi : i < s.scopes.size) (hfree : ∀ x ∈ "makeCounter" :: names, s.refuses i x = false)
    {js : List (Fin names.length)} (hjs : js.length < 2 ^ 63) {ps : List (Host × Program)}
    (hps : Stmt.eraseAll (ps.flatMap fun p => p.2.body) = Stmt.counters names js)
    (printed : Array String) :
    let runs := Program.executeAll config i ps s printed
    (∀ r ∈ runs.results, r = .ok none) ∧
      ∃ lines : List String, runs.printed.toList = printed.toList ++ lines ∧
        lines.length = js.length ∧
        ∀ (t : Nat) (ht : t < js.length),
          lines[t]? = some (toString ((js.take (t + 1)).count js[t])) := by
  intro runs
  have hdue : Due i s (Stmt.eraseAll (ps.flatMap fun p => p.2.body))
      (tallies [] (js.map names.get)) := by
    refine .fresh hi hnames hfree (fun x hx => ?_) (by simpa using hjs) ?_ rfl
    · obtain ⟨j, -, rfl⟩ := List.mem_map.1 hx
      exact List.get_mem names j
    · rw [hps, Stmt.counters, List.map_map]
      rfl
  obtain ⟨hresults, hprinted⟩ := hdue.executeAll (Store.EqErased.refl s) hdepth printed
  refine ⟨hresults, _, hprinted, by rw [length_tallies, List.length_map], fun t ht => ?_⟩
  have hinjective : Function.Injective names.get :=
    List.nodup_iff_injective_get.1 (List.nodup_cons.1 hnames).2
  rw [getElem?_tallies, List.getElem?_map, List.getElem?_eq_getElem ht, List.nil_append,
    ← List.map_take]
  simp only [Option.map_some, List.count_map_of_injective _ _ hinjective]

/-- Two counters, called once before and twice after the end of a run. -/
theorem Program.counters_count_two :
    let s := Store.empty.openRoot .forbid
    let first : Program := ⟨⟨0, 99⟩, [.function .makeCounter, .definesCounter "a",
      .definesCounter "b", .callsCounter "a"]⟩
    let second : Program := ⟨⟨0, 9⟩, [
      .expr ⟨0, 4⟩ (.call ⟨0, 3⟩ (.ident ⟨"b", ⟨0, 1⟩⟩) []),
      .expr ⟨5, 9⟩ (.call ⟨5, 8⟩ (.ident ⟨"a", ⟨5, 6⟩⟩) [])]⟩
    let runs := Program.executeAll ⟨.forbid, 1⟩ 0 [(⟨0⟩, first), (⟨5⟩, second)] s #[]
    (∀ x ∈ ["makeCounter", "a", "b"], s.refuses 0 x = false) ∧
      (∀ r ∈ runs.results, r = .ok none) ∧
      ∃ lines : List String, runs.printed.toList = lines ∧ lines.length = 3 ∧
        lines[0]? = some "1" ∧ lines[1]? = some "1" ∧ lines[2]? = some "2" := by
  intro s first second runs
  have hfree : ∀ x ∈ ["makeCounter", "a", "b"], s.refuses 0 x = false := fun x _ =>
    Store.refuses_of_value?_eq_none (by
      rw [Store.value?_openRoot]
      exact Store.value?_nextScope .empty x)
  obtain ⟨hresults, lines, hprinted, hlength, hlines⟩ :=
    @Program.counters_count ["a", "b"] (by decide) ⟨.forbid, 1⟩ (Nat.le_refl 1) s 0 Nat.zero_lt_one
      hfree [0, 1, 0] (by decide) [(⟨0⟩, first), (⟨5⟩, second)] rfl #[]
  exact ⟨hfree, hresults, lines, hprinted, hlength, (hlines 0 (by decide)).trans (by decide),
    (hlines 1 (by decide)).trans (by decide), (hlines 2 (by decide)).trans (by decide)⟩

end Scoped
