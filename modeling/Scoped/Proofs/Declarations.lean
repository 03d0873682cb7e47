import Scoped.Interpreter
import Scoped.Proofs.Context

/-!
# Only declarations bind

An expression binds no name in a scope that exists before it, however many calls and
assignments are nested in it : parameters are bound in the scope that a call opens, and an
assignment goes to a scope that binds the name. A statement binds in the scope it is in, and
only the names that it declares there itself or in a branch of an `if` (`Stmt.declared`);
what a block or the body of a function declares goes to a scope of its own.

`Invariant.names` is the first half, as an invariant of the evaluator relative to the store
that it starts from. `Declares` is the effect of a statement on the names of the scopes, and
`Interpreter.Session` are the interpreters that runs of scripts lead to. The main result is
`Host.only_declarations_bind`.
-/

namespace Scoped

open Simulation

/-! ## Expressions -/

/-- The scopes of `s₀` bind the names that they bind there, and names are declared in later
scopes only. -/
def Invariant.names (s₀ : Store) : Invariant where
  inv s := s₀.scopes.size ≤ s.scopes.size ∧
    ∀ i < s₀.scopes.size, ∀ x, s.binds i x = s₀.binds i x
  ok _ _ := True
  seen _ _ := True
  home _ i := s₀.scopes.size ≤ i
  ok_grows _ _ := trivial
  seen_grows _ _ := trivial
  home_grows _ h := h
  seen_of_home _ := trivial
  ok_data _ := trivial
  seen_captured _ := trivial
  ok_get? _ _ _ := trivial
  assign {s i x j v} h _ hj _ := by
    refine ⟨by simpa using h.1, fun k hk y => ?_⟩
    rw [Store.binds_bind_of_binds (Store.binds_of_resolve? hj), h.2 k hk y]
  declare {s i x v} h hi _ := by
    refine ⟨by simpa using h.1, fun k hk y => ?_⟩
    have hne : i ≠ k := (hk.trans_le hi).ne'
    simp [Store.binds_bind, hne, h.2 k hk y]
  takeIdentity h := h
  ok_closure _ _ := trivial
  openInside h _ := ⟨by simpa using h.1.trans (Nat.le_succ _), by simpa using h.2⟩
  home_openInside h _ := h.1

/-! ## Statements -/

/-- The names that a statement declares in the scope that it is in. -/
def Stmt.declared : Stmt → List String
  | .bind _ id _ => [id.name]
  | .function d => d.name?.toList
  | .cond _ _ a none => a.declared
  | .cond _ _ a (some b) => a.declared ++ b.declared
  | .expr .. | .print .. | .ret .. | .block .. => []

/-- From `m` to `m'` names were declared in the scope of the run only, and only those of `D`. -/
structure Declares (D : List String) (m m' : Machine) : Prop where
  grows : m.store.Grows m'.store
  scope : m'.scope = m.scope
  others : ∀ i < m.store.scopes.size, i ≠ m.scope → ∀ x, m'.store.binds i x = m.store.binds i x
  here : m.scope < m.store.scopes.size → ∀ x, m'.store.binds m.scope x = true →
    m.store.binds m.scope x = true ∨ x ∈ D

namespace Declares

variable {α β : Type} {D D' : List String} {m m' m'' : Machine}

theorem refl (D : List String) (m : Machine) : Declares D m m :=
  ⟨.refl _, rfl, fun _ _ _ _ => rfl, fun _ _ h => Or.inl h⟩

theorem trans (h : Declares D m m') (h' : Declares D m' m'') : Declares D m m'' where
  grows := h.grows.trans h'.grows
  scope := h'.scope.trans h.scope
  others i hi hne x := by
    rw [h'.others i (hi.trans_le h.grows.size_le) (h.scope ▸ hne), h.others i hi hne]
  here hm x hx := by
    rw [← h.scope] at hx
    rcases h'.here (h.scope ▸ hm.trans_le h.grows.size_le) x hx with hx | hx
    · exact h.here hm x (h.scope ▸ hx)
    · exact Or.inr hx

theorem mono (h : Declares D m m') (hD : ∀ x ∈ D, x ∈ D') : Declares D' m m' :=
  ⟨h.grows, h.scope, h.others, fun hm x hx => (h.here hm x hx).imp_right (hD x)⟩

/-- Computations one after the other. -/
theorem bind {x : Eval α} {f : α → Eval β} (hx : Declares D m (x.final m))
    (hf : ∀ a m', Declares D m' ((f a).final m')) : Declares D m ((x >>= f).final m) := by
  cases h : x m with
  | ok a m' =>
    have hm' : x.final m = m' := by rw [Eval.final, h]
    have hfin : (x >>= f).final m = (f a).final m' := by rw [Eval.final, Eval.bind_ok h, Eval.final]
    rw [hfin]
    exact (hm' ▸ hx).trans (hf a m')
  | error e m' =>
    have hfin : (x >>= f).final m = x.final m := by
      rw [Eval.final, Eval.bind_error h, Eval.final, h]
    rwa [hfin]

/-- A computation that leaves the names of all scopes declares nothing. -/
theorem of_binds (hg : m.store.Grows m'.store) (hc : m'.context = m.context)
    (h : ∀ i < m.store.scopes.size, ∀ x, m'.store.binds i x = m.store.binds i x) :
    Declares D m m' :=
  ⟨hg, congrArg Context.scope hc, fun i hi _ x => h i hi x,
    fun hm x hx => Or.inl (by rwa [← h _ hm x])⟩

theorem of_respects {Q : Store → α → Prop} {x : Eval α}
    (h : (Invariant.names m.store).simulation.Respects m.store m.context m.context Q x x) :
    Declares D m (x.final m) := by
  obtain ⟨hinv, hg, hc, -⟩ := Invariant.kept h ⟨le_refl _, fun _ _ _ => rfl⟩
  exact .of_binds hg hc hinv.2

end Declares

namespace Host

variable (host : Host)

theorem declares_eval (D : List String) (e : Expr) (m : Machine) :
    Declares D m ((e.eval host.call).final m) :=
  .of_respects (respects_eval (respectsCalls_call host m.context) e (i := m.scope) trivial)

theorem declares_block (D : List String) (span : Span) (body : List Stmt) (m : Machine) :
    Declares D m (((Stmt.block span body).exec host.call).final m) := by
  simp only [Stmt.exec]
  -- the body is in a scope that is opened for it, and so it may declare names there
  refine .of_respects (Q := (Invariant.names m.store).simulation.okEnd)
    (respects_bind (respects_openBlock trivial) fun k w hw hk => ?_)
  exact respects_inScope k (respects_execAll (respectsCalls_call host m.context) body hk)

theorem declares_closure (D : List String) (d : FunctionDef) (m : Machine) :
    Declares D m ((Eval.closure d).final m) :=
  .of_binds m.store.grows_takeIdentity rfl fun _ _ _ => rfl

theorem declares_print (D : List String) (line : String) (m : Machine) :
    Declares D m ((Eval.print line).final m) :=
  .of_binds (.refl _) rfl fun _ _ _ => rfl

theorem declares_declare (id : Ident) (v : Value) (m : Machine) :
    Declares [id.name] m ((Eval.declare id v).final m) := by
  unfold Eval.final Eval.declare Eval.declareIn
  by_cases hr : m.store.refuses m.scope id.name = true
  · rw [if_pos hr]
    exact .refl _ m
  · rw [if_neg hr]
    refine ⟨m.store.grows_bind .., rfl, fun i _ hne x => ?_, fun _ x hx => ?_⟩
    · simp [Store.binds_bind, hne.symm]
    · rw [Store.binds_bind, Bool.or_eq_true, decide_eq_true_iff] at hx
      rcases hx with ⟨-, rfl, -⟩ | hx
      · exact Or.inr (List.mem_singleton_self _)
      · exact Or.inl hx

/-- A statement declares the names of `Stmt.declared`, by induction on the nesting of `if`s. -/
theorem declares_exec : ∀ (s : Stmt) (m : Machine),
    Declares s.declared m ((s.exec host.call).final m)
  | .expr _ e, m => by
    simp only [Stmt.exec]
    exact (host.declares_eval _ e m).bind fun _ m' => .refl _ m'
  | .print _ e, m => by
    simp only [Stmt.exec]
    refine (host.declares_eval _ e m).bind fun v m' => ?_
    exact (declares_print _ v.render m').bind fun _ m' => .refl _ m'
  | .ret _ none, m => .refl _ m
  | .ret _ (some e), m => by
    simp only [Stmt.exec]
    exact (host.declares_eval _ e m).bind fun _ m' => .refl _ m'
  | .block span body, m => host.declares_block _ span body m
  | .bind _ id none, m => by
    simp only [Stmt.exec]
    exact (declares_declare id .nil m).bind fun _ m' => .refl _ m'
  | .bind _ id (some e), m => by
    simp only [Stmt.exec]
    refine (host.declares_eval _ e m).bind fun v m' => ?_
    exact (declares_declare id v m').bind fun _ m' => .refl _ m'
  | .function d, m => by
    simp only [Stmt.exec, Stmt.declared]
    refine (declares_closure _ d m).bind fun v m' => ?_
    cases hid : d.id with
    | some id =>
      have hname : d.name?.toList = [id.name] := by simp [FunctionDef.name?, hid]
      rw [hname]
      exact (declares_declare id v m').bind fun _ m' => .refl _ m'
    | none => exact .refl _ m'
  | .cond _ test a none, m => by
    simp only [Stmt.exec, Stmt.declared]
    refine (host.declares_eval _ test m).bind fun v m' => ?_
    split
    · exact declares_exec a m'
    · exact .refl _ m'
  | .cond _ test a (some b), m => by
    simp only [Stmt.exec, Stmt.declared]
    refine (host.declares_eval _ test m).bind fun v m' => ?_
    split
    · exact (declares_exec a m').mono fun x hx => List.mem_append_left _ hx
    · exact (declares_exec b m').mono fun x hx => List.mem_append_right _ hx

theorem declares_execAll : ∀ (ss : List Stmt) (m : Machine),
    Declares (ss.flatMap Stmt.declared) m ((Stmt.execAll host.call ss).final m)
  | [], m => .refl _ m
  | s :: ss, m => by
    simp only [Stmt.execAll, List.flatMap_cons]
    refine ((host.declares_exec s m).mono fun x hx => List.mem_append_left _ hx).bind
      fun r m' => ?_
    cases r with
    | normal => exact (declares_execAll ss m').mono fun x hx => List.mem_append_right _ hx
    | returned v => exact .refl _ m'

end Host

/-! ## Runs -/

theorem Eval.final_map {α β : Type} (g : α → β) (x : Eval α) (m : Machine) :
    (g <$> x).final m = x.final m := by
  simp only [Eval.final, Functor.map, EStateM.map]
  cases x m <;> rfl

theorem Run.store_of (x : Eval (Option Value)) (m : Machine) :
    (Run.of x m).store = (x.final m).store := by
  unfold Run.of Eval.final
  cases x m <;> rfl

/-- A run of a program declares names in its scope only, and grows the store. -/
theorem Program.declares_execute (p : Program) (host : Host) (config : Config) (s : Store)
    (i : ScopeId) (printed : Array String) :
    s.Grows (p.execute host config s i printed).store ∧ ∀ j < s.scopes.size, j ≠ i →
      ∀ x, (p.execute host config s i printed).store.binds j x = s.binds j x := by
  rw [Program.execute, Run.store_of, Eval.final_map, Host.execAll_eq]
  have h := host.declares_execAll p.body ⟨s, i, config, 0, printed⟩
  exact ⟨h.grows, h.others⟩

namespace Interpreter

/-- The interpreter that a run leaves. -/
def after (i : Interpreter) (r : Run) : Interpreter := { i with store := r.store }

/-- The interpreters that runs of scripts lead to, one after the other. -/
inductive Session (i : Interpreter) : Interpreter → Prop
  | start : Session i i
  | run {j : Interpreter} (clock : Int64) (script : String) (printed : Array String) :
    Session i j → Session i (j.after (j.runScript clock script printed))

/-- A script that cannot be read or does not pass the check leaves the store alone. -/
theorem store_runScript (i : Interpreter) (clock : Int64) (script : String)
    (printed : Array String) : (i.runScript clock script printed).store = i.store ∨
      ∃ p : Program, (i.runScript clock script printed).store =
        (p.execute ⟨clock⟩ i.config i.store i.globals printed).store := by
  unfold runScript
  split
  · next p _ =>
    split
    · exact Or.inr ⟨p, rfl⟩
    · exact Or.inl rfl
  · exact Or.inl rfl

/-- Sessions leave the names of the prelude, since scripts run in the globals. -/
theorem Session.prelude {i j : Interpreter} (h : i.Session j) (hne : i.prelude ≠ i.globals)
    (hp : i.prelude < i.store.scopes.size) :
    j.prelude = i.prelude ∧ j.globals = i.globals ∧ i.store.Grows j.store ∧
      ∀ x, j.store.binds i.prelude x = i.store.binds i.prelude x := by
  induction h with
  | start => exact ⟨rfl, rfl, .refl _, fun _ => rfl⟩
  | @run j clock script printed _ ih =>
    obtain ⟨hpre, hglob, hg, hb⟩ := ih
    refine ⟨hpre, hglob, ?_⟩
    rcases j.store_runScript clock script printed with h | ⟨p, h⟩
    · simp only [after, h]
      exact ⟨hg, hb⟩
    · obtain ⟨hg', hb'⟩ := p.declares_execute ⟨clock⟩ j.config j.store j.globals printed
      simp only [after, h]
      refine ⟨hg.trans hg', fun x => ?_⟩
      rw [hb' _ (hp.trans_le hg.size_le) (hglob ▸ hne), hb]

end Interpreter

theorem Store.binds_register {s : Store} {i : ScopeId} (hi : i < s.scopes.size) (x : String) :
    (s.register i).binds i x = true ↔ (∃ n ∈ Native.all, n.name = x) ∨ s.binds i x = true := by
  unfold Store.register
  generalize Native.all = ns
  induction ns generalizing s with
  | nil => simp
  | cons n ns ih =>
    rw [List.foldl_cons, ih (by simpa using hi)]
    have hi' : i < s.takeIdentity.scopes.size := hi
    simp only [binds_bind, binds_takeIdentity, hi', true_and, and_true, Bool.or_eq_true,
      decide_eq_true_iff, List.mem_cons, exists_eq_or_imp]
    rw [or_left_comm, or_assoc]

theorem Native.mem_all (n : Native) : n ∈ Native.all := by
  cases n <;> decide

/-- The prelude of a new interpreter binds the natives. -/
theorem Interpreter.binds_new (config : Config) (x : String) :
    (Interpreter.new config).store.binds (Interpreter.new config).prelude x = true ↔
      ∃ n : Native, n.name = x := by
  have h0 : (Store.empty.openRoot config.redeclaration).binds 0 x = false := by
    simp [Store.binds, Store.record?, Store.openRoot, Store.push, Store.empty, Record.has_eq]
  have h1 : 0 < (Store.empty.openRoot config.redeclaration).scopes.size := Nat.zero_lt_one
  simp only [Interpreter.new, Store.binds_openInside]
  rw [show Store.empty.nextScope = 0 from rfl, Store.binds_register h1, h0]
  simp [Native.mem_all]

/-! ## The main result -/

theorem Host.names_eval (host : Host) (e : Expr) (m : Machine) {i : ScopeId}
    (hi : i < m.store.scopes.size) (x : String) :
    x ∈ ((host.eval e).final m).store.names i ↔ x ∈ m.store.names i := by
  rw [Store.mem_names, Store.mem_names, host.eval_eq]
  have h := host.declares_eval [] e m
  by_cases hm : i = m.scope
  · subst hm
    exact ⟨fun hx => (h.here hi x hx).resolve_right (by simp), fun hx => h.grows.binds hx⟩
  · rw [h.others i hi hm x]

theorem Store.names_assign {s t : Store} {i : ScopeId} {x : String} {v : Value}
    (h : s.assign i x v = .ok t) (j : ScopeId) (y : String) : y ∈ t.names j ↔ y ∈ s.names j := by
  rw [Store.assign_eq] at h
  cases hk : s.resolve? i x with
  | none =>
    rw [hk] at h
    cases h
  | some k =>
    rw [hk] at h
    cases h
    rw [mem_names, mem_names, binds_bind_of_binds (binds_of_resolve? hk)]

/-- Expressions bind no names in the scopes that there are. Statements bind names in the scope
they are in, and only those that they declare themselves or in the branches of an `if`. So
assigning binds nothing, a run loses no binding and no name that resolves, and the prelude of
an interpreter binds the natives alone after any session. -/
theorem Host.only_declarations_bind (host : Host) :
    (∀ (e : Expr) (m : Machine), ∀ i < m.store.scopes.size, ∀ x,
      x ∈ ((host.eval e).final m).store.names i ↔ x ∈ m.store.names i) ∧
    (∀ (s : Stmt) (m : Machine), m.scope < m.store.scopes.size →
      (∀ i < m.store.scopes.size, i ≠ m.scope → ∀ x,
        x ∈ ((host.exec s).final m).store.names i ↔ x ∈ m.store.names i) ∧
      (∀ x ∈ m.store.names m.scope, x ∈ ((host.exec s).final m).store.names m.scope) ∧
      ∀ x ∈ ((host.exec s).final m).store.names m.scope,
        x ∈ m.store.names m.scope ∨ x ∈ s.declared) ∧
    (∀ (s t : Store) (i : ScopeId) (x : String) (v : Value), s.assign i x v = .ok t →
      ∀ j y, y ∈ t.names j ↔ y ∈ s.names j) ∧
    (∀ (p : Program) (config : Config) (s : Store) (i : ScopeId) (printed : Array String),
      (∀ j, ∀ x ∈ s.names j, x ∈ (p.execute host config s i printed).store.names j) ∧
      ∀ j x, (s.resolve? j x).isSome →
        ((p.execute host config s i printed).store.resolve? j x).isSome) ∧
    ∀ (config : Config) (j : Interpreter), (Interpreter.new config).Session j →
      ∀ x, x ∈ j.store.names j.prelude ↔ ∃ n : Native, n.name = x := by
  refine ⟨fun e m i hi x => host.names_eval e m hi x, fun s m hm => ?_,
    fun s t i x v h => Store.names_assign h, fun p config s i printed => ?_,
    fun config j hj x => ?_⟩
  · have h := host.declares_exec s m
    simp only [Store.mem_names, host.exec_eq]
    exact ⟨fun i hi hne x => by rw [h.others i hi hne x], fun x hx => h.grows.binds hx, h.here hm⟩
  · obtain ⟨hg, -⟩ := p.declares_execute host config s i printed
    simp only [Store.mem_names]
    exact ⟨fun j x hx => hg.binds hx, fun j x hx => hg.isSome_resolve? hx⟩
  · obtain ⟨hpre, -, -, hb⟩ := hj.prelude Nat.zero_ne_one (Nat.lt_of_lt_of_le Nat.zero_lt_one
      (by simp [Interpreter.new]))
    rw [Store.mem_names, hpre, hb]
    exact Interpreter.binds_new config x

/-- An `if` with a declaration in one branch and a block in the other, in a new interpreter :
the name in the block is not declared, the natives can be assigned to and still resolve after
a run, and the prelude stays as it is when a script fails. -/
theorem Host.only_declarations_bind_cond :
    let i := Interpreter.new .standard
    let at0 : Span := ⟨0, 0⟩
    let s : Stmt := .cond at0 (.ident ⟨"str", at0⟩) (.bind at0 ⟨"x", at0⟩ none)
      (some (.block at0 [.bind at0 ⟨"y", at0⟩ none]))
    (i.globals < i.store.scopes.size ∧
      ∀ x ∈ ((Host.exec ⟨0⟩ s).final (i.machine #[])).store.names i.globals,
        x ∈ i.store.names i.globals ∨ x ∈ ["x"]) ∧
    (i.store.assign i.prelude "str" .nil = .ok (i.store.bind i.prelude "str" .nil) ∧
      ∀ j y, y ∈ (i.store.bind i.prelude "str" .nil).names j ↔ y ∈ i.store.names j) ∧
    ((i.store.resolve? i.prelude "str").isSome ∧
      ((Program.execute ⟨at0, [s]⟩ ⟨0⟩ .standard i.store i.globals #[]).store.resolve? i.prelude
        "str").isSome) ∧
    ∀ x, x ∈ (i.after (i.runScript 0 "return z;" #[])).store.names i.prelude ↔
      ∃ n : Native, n.name = x := by
  intro i at0 s
  obtain ⟨-, hexec, hassign, hrun, hsession⟩ := Host.only_declarations_bind ⟨0⟩
  have hglob : i.globals < i.store.scopes.size := by simp [i, Interpreter.new, Store.nextScope]
  have hstr : i.store.binds i.prelude "str" = true :=
    (Interpreter.binds_new .standard "str").2 ⟨.str, rfl⟩
  have hok : i.store.assign i.prelude "str" .nil = .ok (i.store.bind i.prelude "str" .nil) := by
    rw [Store.assign_eq, Store.resolve?_self hstr]
    rfl
  have hresolve : (i.store.resolve? i.prelude "str").isSome := by
    rw [Store.resolve?_self hstr]
    rfl
  exact ⟨⟨hglob, (hexec s (i.machine #[]) hglob).2.2⟩, ⟨hok, hassign _ _ _ _ _ hok⟩,
    ⟨hresolve, (hrun ⟨at0, [s]⟩ .standard i.store i.globals #[]).2 _ _ hresolve⟩,
    hsession .standard _ (.run 0 "return z;" #[] .start)⟩

end Scoped
