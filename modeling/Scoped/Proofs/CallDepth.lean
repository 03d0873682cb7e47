import Scoped.Proofs.Failure

/-!
# The limit of the calls

`Task.Reaches` follows the evaluator and keeps the list of the functions whose calls are
active. The counter of the machine is the length of that list, and the list never gets longer
than the limit (`Task.Reaches.length_le`). A call that would make it longer is refused, and
that is the only way in which a stack overflow arises (`Task.Reaches.exists_atLimit`).

Apart from that the limit cannot be observed. With a higher limit the run goes in lockstep
until the first call that was refused, and on from there : `Program.execute_limit`.
-/

namespace Scoped

variable {α β : Type} {host : Host} {m m' : Machine}

namespace Task

/-- The tasks that come up in the evaluation of a task, with the functions whose calls are active
while they are evaluated, the innermost first. -/
inductive Reaches (host : Host) {α : Type} (t₀ : Task α) (m₀ : Machine) :
    List Function → {β : Type} → Task β → Machine → Prop
  | start : Reaches host t₀ m₀ [] t₀ m₀
  | asks {fs : List Function} {β γ : Type} {t : Task β} {t' : Task γ} {m m' : Machine} :
    Reaches host t₀ m₀ fs t m → (t.plan host m).Asks host t' m' →
    Reaches host t₀ m₀ (t.called ++ fs) t' m'

/-- The functions whose calls are active at a moment of the evaluation : while a task is
evaluated, and while a function runs whose call was not refused. -/
inductive Active (host : Host) (t₀ : Task α) (m₀ : Machine) : List Function → Prop
  | task {fs : List Function} {β : Type} {t : Task β} {m : Machine} :
    t₀.Reaches host m₀ fs t m → Active host t₀ m₀ fs
  | call {fs : List Function} {f : Function} {args : List Value} {m : Machine} :
    t₀.Reaches host m₀ fs (.call f args) m → args.length = f.arity →
    m.depth < m.config.maxCallDepth → Active host t₀ m₀ (f :: fs)

namespace Reaches

variable {t₀ : Task α} {m₀ : Machine} {t : Task β} {fs : List Function}

theorem needs (h : t₀.Reaches host m₀ fs t m) : t₀.Needs host m₀ t m := by
  induction h with
  | start => exact .self
  | asks _ hasks ih => exact .asks ih hasks

theorem fits (h : t₀.Reaches host m₀ fs t m) (h₀ : t₀.Fits m₀) : t.Fits m := h.needs.fits h₀

theorem config_eq (h : t₀.Reaches host m₀ fs t m) (h₀ : t₀.Fits m₀) : m.config = m₀.config := by
  induction h with
  | start => rfl
  | asks hreach hasks ih => exact (below_of_asks hasks (hreach.fits h₀).along).config.trans ih

/-- The machine counts the active calls. -/
theorem depth_eq (h : t₀.Reaches host m₀ fs t m) (h₀ : t₀.Fits m₀) (hm : m₀.depth = 0) :
    m.depth = fs.length := by
  induction h with
  | start => exact hm
  | asks hreach hasks ih =>
    rw [(below_of_asks hasks (hreach.fits h₀).along).depth, ih, List.length_append, Nat.add_comm]

end Reaches

/-- A call asks for something only if one more call may become active. -/
theorem called_length_le_remaining {t : Task α} {t' : Task β} (h : t.Below m t' m') :
    t.called.length ≤ m.remaining := by
  cases t with
  | expr | exprs | stmt | stmts => exact Nat.zero_le _
  | call f args =>
    rcases Prod.Lex.toLex_lt_toLex.1 h.lt with hlt | ⟨-, hlt⟩
    · exact Nat.one_le_iff_ne_zero.2 (Nat.ne_zero_of_lt hlt)
    · exact absurd hlt (Nat.not_lt_zero _)

namespace Reaches

variable {t₀ : Task α} {m₀ : Machine} {t : Task β} {fs : List Function}

/-- The active calls are never more than the limit. -/
theorem length_le (h : t₀.Reaches host m₀ fs t m) (h₀ : t₀.Fits m₀) (hm : m₀.depth = 0) :
    fs.length ≤ m₀.config.maxCallDepth := by
  induction h with
  | start => exact Nat.zero_le _
  | asks hreach hasks ih =>
    have hbelow := below_of_asks hasks (hreach.fits h₀).along
    have hle := called_length_le_remaining hbelow
    rw [Machine.remaining, hreach.config_eq h₀, hreach.depth_eq h₀ hm] at hle
    rw [List.length_append]
    omega

/-- A call in terms of the calls that are active. -/
theorem call_eq {f : Function} {args : List Value} (h : t₀.Reaches host m₀ fs (.call f args) m)
    (h₀ : t₀.Fits m₀) (hm : m₀.depth = 0) : host.call f args m =
      if args.length ≠ f.arity then .error ⟨.arityMismatch f.arity args.length, none⟩ m
      else if fs.length = m₀.config.maxCallDepth then
        .error ⟨.stackOverflow m₀.config.maxCallDepth, none⟩ m
      else Eval.inCall (host.apply f args) m := by
  have hiff : m₀.config.maxCallDepth ≤ fs.length ↔ fs.length = m₀.config.maxCallDepth :=
    ⟨le_antisymm (h.length_le h₀ hm), ge_of_eq⟩
  rw [host.call_eq, h.config_eq h₀, h.depth_eq h₀ hm]
  simp only [hiff]

/-- A stack overflow comes from a call with as many active calls as the limit. The induction
follows the error inward, to the task that raised it. -/
theorem exists_atLimit {α β : Type} {t₀ : Task α} {m₀ : Machine} {t : Task β} {m m' : Machine}
    {fs : List Function} {e : Error} {k : Nat} (h : t₀.Reaches host m₀ fs t m)
    (h₀ : t₀.Fits m₀) (hm : m₀.depth = 0) (hrun : t.run host m = .error e m')
    (hk : e.cause = .stackOverflow k) :
    k = m₀.config.maxCallDepth ∧ ∃ fs f args m₁, t₀.Reaches host m₀ fs (.call f args) m₁ ∧
      args.length = f.arity ∧ fs.length = m₀.config.maxCallDepth := by
  have halong : (t.plan host m).Along host (t.Below m) := (h.fits h₀).along
  rw [t.run_eq] at hrun
  rcases Plan.raised_or_asked (t.raises_plan m) halong hrun with
    hallows | ⟨γ, t', m₁, e', m₂, hasks, hrun', hkeeps⟩
  · obtain ⟨hlimit, hat⟩ := hallows k hk
    cases t with
    | expr | exprs | stmt | stmts => exact hat.elim
    | call f args =>
      obtain ⟨harity, hdepth⟩ := hat
      rw [h.config_eq h₀] at hlimit hdepth
      rw [h.depth_eq h₀ hm] at hdepth
      exact ⟨hlimit, fs, f, args, m, h, harity, le_antisymm (h.length_le h₀ hm) hdepth⟩
  · exact exists_atLimit (h.asks hasks) h₀ hm hrun' (hkeeps.cause.symm.trans hk)
termination_by t.measure m
decreasing_by exact (below_of_asks hasks halong).lt

end Reaches

theorem Active.length_le {t₀ : Task α} {m₀ : Machine} {fs : List Function}
    (h : t₀.Active host m₀ fs) (h₀ : t₀.Fits m₀) (hm : m₀.depth = 0) :
    fs.length ≤ m₀.config.maxCallDepth := by
  cases h with
  | task hreach => exact hreach.length_le h₀ hm
  | call hreach _ hlt =>
    rwa [hreach.config_eq h₀, hreach.depth_eq h₀ hm] at hlt

end Task

/-! ## Two limits -/

/-- The run failed because one more call would have been more than `k`. -/
def Run.Overflows (r : Run) (k : Nat) : Prop :=
  ∃ e, r.result = .error e ∧ e.cause = .stackOverflow k

/-- Two runs of one program in one store, the second one with a limit that is at least as high. -/
def Coupling.limits {left right : Config} (hle : left.maxCallDepth ≤ right.maxCallDepth) :
    Coupling :=
  .same (fun _ _ => True) left right (· = .stackOverflow left.maxCallDepth) hle (.inr rfl)

namespace Coupling

variable {left right : Config} {hle : left.maxCallDepth ≤ right.maxCallDepth}

/-- The two runs are equal, or the first one has overflown and printed what the second one began
with. -/
theorem limits_execute (p : Program) (host : Host) (hle : left.maxCallDepth ≤ right.maxCallDepth)
    (s : Store) (i : ScopeId) (printed : Array String) :
    p.execute host right s i printed = p.execute host left s i printed ∨
      (p.execute host left s i printed).Overflows left.maxCallDepth ∧
        ∃ more, (p.execute host right s i printed).printed =
          (p.execute host left s i printed).printed ++ more := by
  have hresults : (limits hle).Results (p.execute host left s i printed)
      (p.execute host right s i printed) :=
    results_execute (C := limits hle) p.alike_self_everywhere ⟨rfl, s.allowed_everywhere⟩ host i
      printed
  generalize p.execute host left s i printed = run at hresults ⊢
  generalize p.execute host right s i printed = run' at hresults ⊢
  cases hresults with
  | ok hvalues hstores =>
    obtain ⟨rfl, -⟩ := hstores
    obtain rfl := Value.eq_of_rel_same hvalues
    exact .inl rfl
  | error herrors hstores =>
    obtain ⟨rfl, -⟩ := hstores
    obtain ⟨⟨rfl, -⟩, -⟩ := herrors
    exact .inl rfl
  | stopped hstops hmore => exact .inr ⟨⟨_, rfl, hstops⟩, _, hmore⟩

end Coupling

/-- The limit of the calls is exact, and apart from that cannot be observed. Never more calls are
active than the limit. A call fails with a stack overflow, which has the limit, exactly if it has as
many arguments as the function takes and as many calls are active as the limit; and the run
does, exactly if it comes to such a call. A run with a limit that is at least as high is the same
run if the first one did not overflow, and otherwise begins with the lines that the first one
printed. -/
theorem Program.execute_limit (p : Program) (host : Host) {s : Store} (hs : s.WellFormed)
    {i : ScopeId} (hi : i < s.scopes.size) (printed : Array String) {config config' : Config}
    (hle : config.maxCallDepth ≤ config'.maxCallDepth) :
    let t₀ := Task.stmts p.body
    let m₀ : Machine := ⟨s, i, config, 0, printed⟩
    let limit := config.maxCallDepth
    let run := p.execute host config s i printed
    let run' := p.execute host config' s i printed
    (∀ fs, t₀.Active host m₀ fs → fs.length ≤ limit) ∧
      (∀ fs f args m, t₀.Reaches host m₀ fs (.call f args) m → host.call f args m =
        if args.length ≠ f.arity then .error ⟨.arityMismatch f.arity args.length, none⟩ m
        else if fs.length = limit then .error ⟨.stackOverflow limit, none⟩ m
        else Eval.inCall (host.apply f args) m) ∧
      (∀ k, run.Overflows k ↔ k = limit ∧ ∃ fs f args m,
        t₀.Reaches host m₀ fs (.call f args) m ∧ args.length = f.arity ∧ fs.length = limit) ∧
      ((∀ k, ¬run.Overflows k) → run' = run) ∧
      ∀ k, run.Overflows k → ∃ more, run'.printed = run.printed ++ more := by
  intro t₀ m₀ limit run run'
  have h₀ : t₀.Fits m₀ := ⟨hs, hi, by simp [t₀]⟩
  have hrun : run = Run.ofEnding (t₀.run host m₀) := p.execute_eq host config s i printed
  have htwo : run' = run ∨ run.Overflows limit ∧ ∃ more, run'.printed = run.printed ++ more :=
    Coupling.limits_execute p host hle s i printed
  refine ⟨fun fs h => h.length_le h₀ rfl, fun fs f args m h => h.call_eq h₀ rfl,
    fun k => ⟨?_, ?_⟩, fun hnone => ?_, fun k hk => ?_⟩
  · rintro ⟨e, he, hk⟩
    rw [hrun] at he
    obtain ⟨m', hm'⟩ := Run.error_of_ofEnding he
    exact Task.Reaches.exists_atLimit .start h₀ rfl hm' hk
  · rintro ⟨rfl, fs, f, args, m, hreach, harity, hlength⟩
    have hcall : (Task.call f args).run host m = .error ⟨.stackOverflow limit, none⟩ m := by
      rw [Task.run, hreach.call_eq h₀ rfl, if_neg (not_not.2 harity), if_pos hlength]
    obtain ⟨e', m', hrun', hkeeps⟩ := hreach.needs.run_error h₀ hcall
    exact ⟨e', by rw [hrun, hrun']; rfl, hkeeps.cause⟩
  · exact htwo.resolve_right fun h => hnone _ h.1
  · rcases htwo with heq | ⟨-, hmore⟩
    · exact ⟨#[], by rw [heq, Array.append_empty]⟩
    · exact hmore

/-- `fn f(b) { print b; if (b) f(nil); } f(true);` -/
def Program.callsTwice : Program :=
  let call (span : Span) (arg : Literal) : Stmt :=
    .expr ⟨span.start, span.stop + 1⟩ (.call span (.ident ⟨"f", ⟨span.start, span.start + 1⟩⟩)
      [.literal ⟨span.start + 2, span.stop - 1⟩ arg])
  let b (start : Nat) : Expr := .ident ⟨"b", ⟨start, start + 1⟩⟩
  ⟨⟨0, 45⟩, [
    .function (.mk ⟨0, 36⟩ (some ⟨"f", ⟨3, 4⟩⟩) [⟨"b", ⟨5, 6⟩⟩] ⟨8, 36⟩ [
      .print ⟨10, 18⟩ (b 16),
      .cond ⟨19, 34⟩ (b 23) (call ⟨26, 32⟩ .nil) none]),
    call ⟨37, 44⟩ (.bool true)]⟩

/-- Two calls are needed : with one the run overflows after one line, which the run with two
begins with. -/
theorem Program.execute_limit_callsTwice :
    let s := Store.empty.openRoot .allow
    let run := Program.callsTwice.execute ⟨0⟩ ⟨.allow, 1⟩ s 0 #[]
    let run' := Program.callsTwice.execute ⟨0⟩ ⟨.allow, 2⟩ s 0 #[]
    s.WellFormed ∧ 0 < s.scopes.size ∧ run.Overflows 1 ∧ run.printed = #["true"] ∧
      run'.printed = #["true", "nil"] ∧ (∃ more, run'.printed = run.printed ++ more) ∧
      ∃ fs f args m, (Task.stmts Program.callsTwice.body).Reaches ⟨0⟩ ⟨s, 0, ⟨.allow, 1⟩, 0, #[]⟩ fs
        (.call f args) m ∧ args.length = f.arity ∧ fs.length = 1 := by
  intro s run run'
  have hs : s.WellFormed := Store.WellFormed.empty.openRoot .allow
  have hi : 0 < s.scopes.size := by decide
  have hresult : (Program.callsTwice.execute ⟨0⟩ ⟨.allow, 1⟩ (Store.empty.openRoot .allow) 0
      #[]).result = .error ⟨.stackOverflow 1, some ⟨26, 32⟩⟩ := by cbv
  have hprinted : (Program.callsTwice.execute ⟨0⟩ ⟨.allow, 1⟩ (Store.empty.openRoot .allow) 0
      #[]).printed = #["true"] := by cbv
  have hprinted' : (Program.callsTwice.execute ⟨0⟩ ⟨.allow, 2⟩ (Store.empty.openRoot .allow) 0
      #[]).printed = #["true", "nil"] := by cbv
  have hoverflows : run.Overflows 1 := ⟨_, hresult, rfl⟩
  have hle : (⟨.allow, 1⟩ : Config).maxCallDepth ≤ (⟨.allow, 2⟩ : Config).maxCallDepth := by decide
  obtain ⟨-, -, hiff, -, hmore⟩ := Program.execute_limit .callsTwice ⟨0⟩ hs hi #[] hle
  exact ⟨hs, hi, hoverflows, hprinted, hprinted', hmore 1 hoverflows, ((hiff 1).1 hoverflows).2⟩

end Scoped
