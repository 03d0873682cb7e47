import Scoped.Proofs.Failure

/-!
# Where errors arise

A run that fails does so at a place of the program, or of a function that the store held when
the run started, and the cause is one that such a place can raise (`Item.Raises`).

The run goes in lockstep with itself, in a coupling that allows for exactly these failures :
the values of the store keep to them, as new functions are places of what runs already.
-/

namespace Scoped

variable {host : Host} {config : Config}

/-- The item stands in the program or in a function of the store. -/
def Item.OccursIn (p : Program) (s : Store) (item : Item) : Prop :=
  (∃ site ∈ p.sites, site.item = item) ∨
    ∃ i x n d k, s.value? i x = some (.function (.closure n d k)) ∧
      ∃ site ∈ d.sites [], site.item = item

/-- The cause is one that a place of the program or of a function of the store can raise. -/
def Cause.ArisesIn (p : Program) (s : Store) (c : Cause) (span : Span) : Prop :=
  ∃ item : Item, item.OccursIn p s ∧ item.Raises c span

theorem Program.alike_self_of_arisesIn (p : Program) (s : Store) :
    Stmt.AlikeAll (.same (Cause.ArisesIn p s)) p.body p.body := by
  have hallowed : Site.Allowed (.same (Cause.ArisesIn p s)) p.sites :=
    fun site hsite c span hraises => ⟨rfl, site.item, .inl ⟨site, hsite, rfl⟩, hraises⟩
  exact Stmt.alikeAll_self p.body hallowed

theorem Store.allowed_arisesIn (p : Program) (s : Store) : s.Allowed (Cause.ArisesIn p s) :=
  Store.allowed_of_sites fun i x n d k hv site hsite _ _ hraises =>
    ⟨rfl, site.item, .inr ⟨i, x, n, d, k, hv, site, hsite, rfl⟩, hraises⟩

/-- Errors of statements are at places of the program or of functions of the store. -/
theorem Program.arisesIn_of_error (p : Program) {m m' : Machine} {e : Error} (hdepth : m.depth = 0)
    (h : Stmt.execAll host.call p.body m = .error e m') :
    ∃ span, e.span = some span ∧ e.cause.ArisesIn p m.store span := by
  let C := Coupling.same (Cause.ArisesIn p m.store) m.config m.config (fun _ => False) le_rfl
    (.inl rfl)
  have hpairs : C.Pairs 0 m m :=
    ⟨⟨rfl, m.store.allowed_arisesIn p⟩, rfl, rfl, rfl, hdepth, hdepth⟩
  have hcall : C.CouplesCalls host 0 := Coupling.couplesCalls host _ 0 rfl
  have hends := Coupling.couples_execAll hcall (p.alike_self_of_arisesIn m.store) hpairs
  rw [h] at hends
  cases hends with
  | error hlocated _ =>
    obtain ⟨⟨-, hraises⟩, -⟩ := hlocated
    exact ⟨_, rfl, hraises⟩
  | stopped hstops _ => exact hstops.elim

theorem Cause.ArisesIn.not_scriptError {p : Program} {s : Store} {c : Cause} {span : Span}
    (h : c.ArisesIn p s span) (fault : ScriptFault) : c ≠ .scriptError fault := by
  rintro rfl
  obtain ⟨item, -, hraises⟩ := h
  cases hraises with
  | call hc => exact hc

/-- The error of a run has a span, which is that of an item of the program or of a function in the
store that the run started with, and an item which can raise that cause; the cause is no
fault of the script. What fails on the way with a span is what the run fails with. -/
theorem Program.execute_error_located (p : Program) (host : Host) (config : Config) {s : Store}
    (hs : s.WellFormed) {i : ScopeId} (hi : i < s.scopes.size) (printed : Array String) :
    (∀ e, (p.execute host config s i printed).result = .error e →
        ∃ span item, e.span = some span ∧ Item.OccursIn p s item ∧ item.Raises e.cause span ∧
          ∀ fault, e.cause ≠ .scriptError fault) ∧
      ∀ {β : Type} (t : Task β) (m : Machine),
        (Task.stmts p.body).Needs host ⟨s, i, config, 0, printed⟩ t m →
        ∀ c span m', t.run host m = .error ⟨c, some span⟩ m' →
          (p.execute host config s i printed).result = .error ⟨c, some span⟩ := by
  rw [p.execute_eq]
  constructor
  · intro e he
    obtain ⟨m', hrun⟩ := Run.error_of_ofEnding he
    obtain ⟨span, hspan, harises⟩ := p.arisesIn_of_error rfl hrun
    have hscript := harises.not_scriptError
    obtain ⟨item, hoccurs, hraises⟩ := harises
    exact ⟨span, item, hspan, hoccurs, hraises, hscript⟩
  · intro β t m hneeds c span m' hrun
    have h₀ : (Task.stmts p.body).Fits ⟨s, i, config, 0, printed⟩ := ⟨hs, hi, by simp⟩
    obtain ⟨e', m'', hrun', hkeeps⟩ := hneeds.run_error h₀ hrun
    rw [hrun', hkeeps.eq rfl]
    rfl

/-- `fn neg(x) { return -x; }` -/
def FunctionDef.negating : FunctionDef :=
  .mk ⟨0, 24⟩ (some ⟨"neg", ⟨3, 6⟩⟩) [⟨"x", ⟨7, 8⟩⟩] ⟨10, 24⟩
    [.ret ⟨12, 22⟩ (some (.unary ⟨19, 21⟩ .minus (.ident ⟨"x", ⟨20, 21⟩⟩)))]

/-- `neg("a");` -/
def Program.negatesText : Program :=
  ⟨⟨0, 9⟩, [.expr ⟨0, 9⟩ (.call ⟨0, 8⟩ (.ident ⟨"neg", ⟨0, 3⟩⟩) [.literal ⟨4, 7⟩ (.string "a")])]⟩

/-- A store whose only scope binds a function. -/
def Store.withNegating : Store :=
  (Store.empty.openRoot .allow).bind 0 "neg" (.function (.closure 0 .negating 0))

/-- A function that was in the store already fails at the operator in its body, and the call
does not take the place of that. -/
theorem Program.execute_error_located_negatesText :
    let s := Store.withNegating
    let run := Program.negatesText.execute ⟨0⟩ .standard s 0 #[]
    let e : Error := ⟨.typeError (.operand .minus .string), some ⟨19, 21⟩⟩
    s.WellFormed ∧ 0 < s.scopes.size ∧ run.result = .error e ∧
      ∃ span item, e.span = some span ∧ Item.OccursIn .negatesText s item ∧
        item.Raises e.cause span ∧ ∀ fault, e.cause ≠ .scriptError fault := by
  intro s run e
  have hs : s.WellFormed := (Store.WellFormed.empty.openRoot .allow).bind (by
    rintro i ⟨⟩
    decide)
  have hi : 0 < s.scopes.size := by decide
  have hrun : (Program.negatesText.execute ⟨0⟩ .standard .withNegating 0 #[]).result =
      .error ⟨.typeError (.operand .minus .string), some ⟨19, 21⟩⟩ := by cbv
  obtain ⟨hlocated, -⟩ := Program.execute_error_located .negatesText ⟨0⟩ .standard hs hi #[]
  exact ⟨hs, hi, hrun, hlocated e hrun⟩

end Scoped
