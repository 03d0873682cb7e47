import Scoped.Proofs.Termination
import Scoped.Sink

/-!
# Output

A program writes lines and never reads them. `Plan.Shifts` compares two plans whose machines differ
in lines that were printed before : they ask for the same tasks, and what they do next does not
look at those lines. The plans of all tasks are so, with one case for each construct
(`Task.shifts_plan`), and it follows for everything that is carried out by them : more lines before
give the same ending with more lines before (`Task.run_prepend`).

`Plan.Delivers` carries a plan out with a sink of the host : each line is written to it when the
step that prints it is done, and no step finds any line on its machine. Any sink gets the same
lines, in the same order and each one once, also where the run ends with an error
(`Task.delivers_iff`).
-/

namespace Scoped

variable {α β σ : Type} {host : Host} {m : Machine} {lines : Array String}

/-! ## Lines from before -/

namespace Machine

/-- The machine with more lines before its own. -/
def prepend (lines : Array String) (m : Machine) : Machine :=
  { m with printed := lines ++ m.printed }

/-- The machine without its lines. -/
def quiet (m : Machine) : Machine := { m with printed := #[] }

@[simp]
theorem prepend_prepend (lines more : Array String) (m : Machine) :
    (m.prepend lines).prepend more = m.prepend (more ++ lines) := by
  simp [prepend]

@[simp]
theorem prepend_quiet (m : Machine) : m.quiet.prepend m.printed = m := by
  simp [prepend, quiet]

end Machine

namespace Ending

/-- The lines on the machine that is left. -/
def printed : Ending α → Array String
  | .ok _ m | .error _ m => m.printed

/-- The ending with more lines before its own. -/
def prepend (lines : Array String) : Ending α → Ending α
  | .ok a m => .ok a (m.prepend lines)
  | .error e m => .error e (m.prepend lines)

/-- The ending without its lines. -/
def quiet : Ending α → Ending α
  | .ok a m => .ok a m.quiet
  | .error e m => .error e m.quiet

@[simp]
theorem prepend_prepend (lines more : Array String) (r : Ending α) :
    (r.prepend lines).prepend more = r.prepend (more ++ lines) := by
  cases r <;> simp [prepend]

@[simp]
theorem prepend_quiet (r : Ending α) : r.quiet.prepend r.printed = r := by
  cases r <;> simp [prepend, quiet, printed]

@[simp]
theorem quiet_prepend (lines : Array String) (r : Ending α) :
    (r.prepend lines).quiet = r.quiet := by
  cases r <;> rfl

@[simp]
theorem printed_prepend (lines : Array String) (r : Ending α) :
    (r.prepend lines).printed = lines ++ r.printed := by
  cases r <;> rfl

end Ending

/-- The computation does not look at the lines that were printed before. -/
def Eval.Blind (x : Eval α) : Prop := ∀ lines m, x (m.prepend lines) = Ending.prepend lines (x m)

namespace Eval

theorem blind_pure (a : α) : Blind (pure a) := fun _ _ => rfl

theorem Blind.bind {x : Eval α} {f : α → Eval β} (hx : x.Blind) (hf : ∀ a, (f a).Blind) :
    (x >>= f).Blind := by
  intro lines m
  have hm := hx lines m
  cases h : x m with
  | ok a m' =>
    rw [h] at hm
    rw [bind_ok hm, bind_ok h]
    exact hf a lines m'
  | error e m' =>
    rw [h] at hm
    rw [bind_error hm, bind_error h]
    rfl

theorem blind_ofExcept (span : Span) (r : Except Cause Value) : (ofExcept span r).Blind := by
  cases r <;> exact fun _ _ => rfl

theorem blind_closure (d : FunctionDef) : (closure d).Blind := fun _ _ => rfl

theorem blind_print (line : String) : (print line).Blind := fun lines m => by
  simp [print, Ending.prepend, Machine.prepend]

theorem blind_declareIn (i : ScopeId) (id : Ident) (v : Value) : (declareIn i id v).Blind := by
  intro lines m
  cases h : m.store.refuses i id.name <;> simp [declareIn, Machine.prepend, Ending.prepend, h]

theorem blind_declare (id : Ident) (v : Value) : (declare id v).Blind := fun lines m =>
  blind_declareIn m.scope id v lines m

theorem blind_declareAll (i : ScopeId) : ∀ (ids : List Ident) (vs : List Value),
    (declareAll i ids vs).Blind
  | [], _ | _ :: _, [] => blind_pure ()
  | id :: ids, v :: vs => (blind_declareIn i id v).bind fun _ => blind_declareAll i ids vs

end Eval

theorem FunctionDef.start_prepend (d : FunctionDef) (captured : ScopeId) (args : List Value)
    (m : Machine) (lines : Array String) :
    d.start captured args (m.prepend lines) = Ending.prepend lines (d.start captured args m) :=
  Eval.blind_declareAll m.store.nextScope d.params args lines (m.opened captured (.call d.name?))

/-! ## Plans -/

/-- The second plan is the first one with more lines before. What comes next is the same function
in both. -/
inductive Plan.Shifts : {α : Type} → Array String → Plan α → Plan α → Prop
  | done {α : Type} {lines : Array String} (r : Ending α) :
    Shifts lines (.done r) (.done (r.prepend lines))
  | walk {α : Type} {lines : Array String} {s : Store} {x : String} {i : ScopeId}
    {next next' : Option ScopeId → Plan α} : (∀ j, Shifts lines (next j) (next' j)) →
    Shifts lines (.walk s x i next) (.walk s x i next')
  | ask {α β : Type} {lines : Array String} {t : Task β} {m : Machine} {next : Ending β → Plan α} :
    (∀ lines q, Shifts lines (next q) (next (q.prepend lines))) →
    Shifts lines (.ask t m next) (.ask t (m.prepend lines) next)

namespace Plan

theorem shifts_done {x : Eval α} (hx : x.Blind) (m : Machine) :
    Shifts lines (.done (x m)) (.done (x (m.prepend lines))) := by
  rw [hx]
  exact .done _

theorem shifts_after {t : Task β} {next : β → Machine → Plan α}
    (h : ∀ b m lines, Shifts lines (next b m) (next b (m.prepend lines))) :
    Shifts lines (after t m next) (after t (m.prepend lines) next) := by
  refine .ask fun lines q => ?_
  cases q with
  | ok b m => exact h b m lines
  | error e m => exact .done _

/-- A task whose ending is passed on. -/
theorem shifts_ask {t : Task α} {f : Ending α → Ending β}
    (hf : ∀ lines q, f (q.prepend lines) = (f q).prepend lines) :
    Shifts lines (.ask t m fun q => .done (f q))
      (.ask t (m.prepend lines) fun q => .done (f q)) := by
  refine .ask fun lines q => ?_
  rw [hf]
  exact .done _

end Plan

open Plan (Shifts shifts_done shifts_after shifts_ask)

theorem Expr.shifts_plan (e : Expr) (m : Machine) (lines : Array String) :
    Shifts lines (e.plan m) (e.plan (m.prepend lines)) := by
  cases e with
  | literal => exact .done _
  | ident id =>
    refine .walk fun j => ?_
    simp only [Machine.prepend]
    split <;> exact .done _
  | assign span target e =>
    refine shifts_after fun v m lines => .walk fun j => ?_
    cases j <;> exact .done _
  | unary span op e =>
    exact shifts_after fun v m lines => shifts_done (Eval.blind_ofExcept span _) m
  | binary span op l r =>
    refine shifts_after fun a m lines => shifts_after fun b m lines => ?_
    exact shifts_done (Eval.blind_ofExcept span _) m
  | logical span op l r =>
    refine shifts_after fun a m lines => ?_
    split
    · exact .done _
    · exact shifts_ask fun _ _ => rfl
  | call span f args =>
    refine shifts_after fun v m lines => ?_
    cases v with
    | nil | bool | number | string => exact .done _
    | function f =>
      refine shifts_after fun vs m lines => shifts_ask fun lines q => ?_
      cases q <;> rfl
  | function d => exact shifts_done (Eval.blind_closure d) m

theorem Stmt.shifts_plan (s : Stmt) (m : Machine) (lines : Array String) :
    Shifts lines (s.plan m) (s.plan (m.prepend lines)) := by
  have hdeclare : ∀ id v, (do Eval.declare id v; pure .normal : Eval Completion).Blind :=
    fun id v => (Eval.blind_declare id v).bind fun _ => Eval.blind_pure _
  cases s with
  | expr _ e => exact shifts_after fun v m lines => .done _
  | print _ e =>
    refine shifts_after fun v m lines => shifts_done ?_ m
    exact (Eval.blind_print v.render).bind fun _ => Eval.blind_pure _
  | ret _ e =>
    cases e with
    | none => exact .done _
    | some e => exact shifts_after fun v m lines => .done _
  | block _ body =>
    refine shifts_ask fun lines q => ?_
    cases q <;> rfl
  | bind _ id e =>
    cases e with
    | none => exact shifts_done (hdeclare id .nil) m
    | some e => exact shifts_after fun v m lines => shifts_done (hdeclare id v) m
  | function d =>
    simp only [Stmt.plan]
    split
    · next id _ => exact shifts_done ((Eval.blind_closure d).bind (hdeclare id)) m
    · exact shifts_done ((Eval.blind_closure d).bind fun _ => Eval.blind_pure _) m
  | cond _ test a b =>
    cases b with
    | none =>
      refine shifts_after fun v m lines => ?_
      split
      · exact shifts_ask fun _ _ => rfl
      · exact .done _
    | some b =>
      refine shifts_after fun v m lines => ?_
      split <;> exact shifts_ask fun _ _ => rfl

theorem Host.shifts_planCall (f : Function) (args : List Value) (m : Machine)
    (lines : Array String) :
    Shifts lines (host.planCall f args m) (host.planCall f args (m.prepend lines)) := by
  simp only [Host.planCall.eq_def]
  split
  · exact .done _
  split
  · next h =>
    rw [if_pos (c := (m.prepend lines).config.maxCallDepth ≤ (m.prepend lines).depth) h]
    exact .done _
  next h =>
  rw [if_neg (c := (m.prepend lines).config.maxCallDepth ≤ (m.prepend lines).depth) h]
  cases f with
  | native _ n =>
    dsimp only
    split <;> exact .done _
  | closure _ d captured =>
    have hstart := d.start_prepend captured args m.deeper lines
    cases h : d.start captured args m.deeper with
    | ok u m₁ =>
      rw [h] at hstart
      have hstart' : d.start captured args (m.prepend lines).deeper = .ok () (m₁.prepend lines) :=
        hstart
      simp only [h, hstart']
      refine shifts_ask (m := m₁.enter m.store.nextScope)
        (f := fun r => (r.leaving m₁.scope).ofBody.fromCall) fun lines q => ?_
      cases q with
      | error e m => rfl
      | ok c m => cases c <;> rfl
    | error e m₁ =>
      rw [h] at hstart
      have hstart' : d.start captured args (m.prepend lines).deeper = .error e (m₁.prepend lines) :=
        hstart
      simp only [h, hstart']
      exact .done (.error e m₁.shallower)

/-- No task looks at the lines that were printed before. -/
theorem Task.shifts_plan (host : Host) (t : Task α) (m : Machine) (lines : Array String) :
    Shifts lines (t.plan host m) (t.plan host (m.prepend lines)) := by
  cases t with
  | expr e => exact e.shifts_plan m lines
  | exprs es =>
    cases es with
    | nil => exact .done _
    | cons e es => exact shifts_after fun v m lines => shifts_after fun vs m lines => .done _
  | stmt s => exact s.shifts_plan m lines
  | stmts ss =>
    cases ss with
    | nil => exact .done _
    | cons s ss =>
      refine shifts_after fun c m lines => ?_
      cases c with
      | normal => exact shifts_ask fun _ _ => rfl
      | returned v => exact .done _
  | call f args => exact host.shifts_planCall f args m lines

/-! ## Runs -/

/-- More lines before a plan give the same ending with more lines before. -/
theorem Plan.Ends.unshift {p q : Plan α} {r : Ending α} (h : q.Ends host r)
    (hshifts : Shifts lines p q) : ∃ r₀, r = r₀.prepend lines ∧ p.Ends host r₀ := by
  induction h generalizing lines with
  | done r =>
    cases hshifts with
    | done r₀ => exact ⟨r₀, rfl, .done r₀⟩
  | walk hw _ ih =>
    cases hshifts with
    | walk hnext =>
      obtain ⟨r₀, rfl, hends⟩ := ih (hnext _)
      exact ⟨r₀, rfl, .walk hw hends⟩
  | ask _ _ ihTask ihNext =>
    cases hshifts with
    | ask hnext =>
      obtain ⟨q₀, rfl, hq⟩ := ihTask (Task.shifts_plan host _ _ lines)
      obtain ⟨r₀, rfl, hends⟩ := ihNext (hnext lines q₀)
      exact ⟨r₀, rfl, .ask hq hends⟩

theorem Task.Fits.prepend {t : Task α} (ht : t.Fits m) (lines : Array String) :
    t.Fits (m.prepend lines) :=
  ⟨ht.store, ht.scope, ht.inputs⟩

/-- The evaluator adds the same lines, whatever was printed before, and ends alike. -/
theorem Task.run_prepend {t : Task α} (ht : t.Fits m) (lines : Array String) :
    t.run host (m.prepend lines) = (t.run host m).prepend lines := by
  have hends : t.Ends host (m.prepend lines) (t.run host (m.prepend lines)) :=
    (t.ends_iff (ht.prepend lines)).2 rfl
  obtain ⟨r₀, hr, h₀⟩ := Plan.Ends.unshift hends (t.shifts_plan host m lines)
  rw [hr, (t.ends_iff ht).1 h₀]

/-! ## Delivery -/

/-- Carrying a plan out, with the lines that it prints written to a sink. Each task starts on a
machine without lines, and leaves one. -/
inductive Plan.Delivers (host : Host) (sink : Sink σ) :
    {α : Type} → Plan α → σ → Ending α → σ → Prop
  | done {α : Type} (r : Ending α) (st : σ) :
    Delivers host sink (.done r) st r.quiet (sink.writeAll st r.printed)
  | walk {α : Type} {s : Store} {x : String} {i : ScopeId} {j : Option ScopeId}
    {next : Option ScopeId → Plan α} {r : Ending α} {st st' : σ} : s.Walks x i j →
    Delivers host sink (next j) st r st' → Delivers host sink (.walk s x i next) st r st'
  | ask {α β : Type} {t : Task β} {m : Machine} {q : Ending β} {next : Ending β → Plan α}
    {r : Ending α} {st st₁ st₂ : σ} :
    Delivers host sink (t.plan host m.quiet) (sink.writeAll st m.printed) q st₁ →
    Delivers host sink (next q) st₁ r st₂ → Delivers host sink (.ask t m next) st r st₂

/-- A task ends so on a machine, and makes this of the state of a sink. -/
def Task.Delivers (host : Host) (sink : Sink σ) (t : Task α) (m : Machine) (st : σ) (r : Ending α)
    (st' : σ) : Prop :=
  (t.plan host m).Delivers host sink st r st'

@[simp]
theorem Sink.writeAll_append (sink : Sink σ) (st : σ) (lines more : Array String) :
    sink.writeAll st (lines ++ more) = sink.writeAll (sink.writeAll st lines) more := by
  simp [writeAll]

section

variable {sink : Sink σ} {st st₁ st₂ : σ}

/-- What a plan prints is delivered, step by step, without the lines from before. -/
theorem Plan.Ends.delivers (sink : Sink σ) {p q : Plan α} {r : Ending α} (h : q.Ends host r)
    (hshifts : Shifts lines p q) : ∃ r₀ : Ending α, r = r₀.prepend lines ∧
      ∀ st, p.Delivers host sink st r₀.quiet (sink.writeAll st r₀.printed) := by
  induction h generalizing lines with
  | done r =>
    cases hshifts with
    | done r₀ => exact ⟨r₀, rfl, fun st => .done r₀ st⟩
  | walk hw _ ih =>
    cases hshifts with
    | walk hnext =>
      obtain ⟨r₀, rfl, hdelivers⟩ := ih (hnext _)
      exact ⟨r₀, rfl, fun st => .walk hw (hdelivers st)⟩
  | @ask α β t m q next r _ _ ihTask ihNext =>
    cases hshifts with
    | @ask _ _ _ m₀ _ hnext =>
      -- the task finds none of the lines, and what comes next none of those of the task either
      have htask := t.shifts_plan host m₀.quiet (lines ++ m₀.printed)
      rw [← Machine.prepend_prepend, Machine.prepend_quiet] at htask
      obtain ⟨q₀, rfl, hq⟩ := ihTask htask
      have hrest := hnext (lines ++ m₀.printed ++ q₀.printed) q₀.quiet
      rw [← Ending.prepend_prepend, Ending.prepend_quiet] at hrest
      obtain ⟨r₀, rfl, hr⟩ := ihNext hrest
      refine ⟨r₀.prepend (m₀.printed ++ q₀.printed), by simp, fun st => ?_⟩
      simp only [Ending.quiet_prepend, Ending.printed_prepend, Sink.writeAll_append]
      exact .ask (hq _) (hr _)

/-- A plan is carried out in one way. -/
theorem Plan.Delivers.unique {p : Plan α} {r r' : Ending α} (h : p.Delivers host sink st r st₁)
    (h' : p.Delivers host sink st r' st₂) : r = r' ∧ st₁ = st₂ := by
  induction h generalizing st₂ with
  | done =>
    cases h'
    exact ⟨rfl, rfl⟩
  | walk hw _ ih =>
    cases h' with
    | walk hw' h' =>
      obtain rfl := hw.unique hw'
      exact ih h'
  | ask _ _ ihTask ihNext =>
    cases h' with
    | ask hq' h' =>
      obtain ⟨rfl, rfl⟩ := ihTask hq'
      exact ihNext h'

/-- A sink gets what the evaluator prints, from a machine without lines. -/
theorem Task.delivers_iff {t : Task α} (ht : t.Fits m) (hm : m.printed = #[]) {r : Ending α} :
    t.Delivers host sink m st r st₁ ↔
      r = (t.run host m).quiet ∧ st₁ = sink.writeAll st (t.run host m).printed := by
  have hends : t.Ends host m (t.run host m) := (t.ends_iff ht).2 rfl
  have hshifts := t.shifts_plan host m.quiet m.printed
  rw [Machine.prepend_quiet] at hshifts
  obtain ⟨r₀, hr, hdelivers⟩ := hends.delivers sink hshifts
  have hquiet : m.quiet = m := by rw [Machine.quiet, ← hm]
  have hr₀ : t.run host m = r₀ := by
    rw [hr, hm]
    cases r₀ <;> simp [Ending.prepend, Machine.prepend]
  rw [hquiet] at hdelivers
  rw [hr₀]
  constructor
  · intro h
    exact h.unique (hdelivers st)
  · rintro ⟨rfl, rfl⟩
    exact hdelivers st

end

/-! ## Sinks -/

@[simp]
theorem Sink.writeAll_array (before lines : Array String) :
    Sink.array.writeAll before lines = before ++ lines := by
  obtain ⟨lines⟩ := lines
  simp [writeAll, array]

namespace Buffers

variable {b : Buffers} {h h' : Nat}

/-- The two handles refer to the same buffer. -/
def Shares (b : Buffers) (h h' : Nat) : Prop := b.buffer? h' = b.buffer? h

theorem shares_clone (hh : h < b.nextHandle) : (b.clone h).Shares h b.nextHandle := by
  obtain ⟨k, hk⟩ : ∃ k, b.handles[h]? = some k := ⟨_, Array.getElem?_eq_getElem hh⟩
  have hclone : (b.clone h).handles = b.handles.push k := by
    unfold clone
    split
    · next hnone => cases hk.symm.trans hnone
    · next k' hk' => rw [Option.some.inj (hk.symm.trans hk')]
  have hne : h ≠ b.handles.size := Nat.ne_of_lt hh
  simp [Shares, buffer?, hclone, nextHandle, Array.getElem?_push, hne, hk]

@[simp]
theorem buffer?_write (b : Buffers) (h : Nat) (line : String) :
    (b.write h line).buffer? = b.buffer? := rfl

/-- A line that is written through a handle is read through those that share its buffer. -/
theorem lines_write (h' : Nat) (hh : h < b.nextHandle) (line : String) :
    (b.Shares h h' → (b.write h line).lines h' = (b.lines h').push line) ∧
      (¬b.Shares h h' → (b.write h line).lines h' = b.lines h') := by
  obtain ⟨k, hk⟩ : ∃ k, b.buffer? h = some k := ⟨_, Array.getElem?_eq_getElem hh⟩
  have hlt : k < b.contents.size := b.handles_lt hk
  have hcontents : (b.write h line).contents = b.contents.modify k (·.push line) := by
    simp [write, modify, hk]
  unfold Shares lines
  rw [buffer?_write, hcontents, hk]
  constructor
  · intro hk'
    simp [hk', Array.getElem?_modify, hlt]
  · intro hne
    cases hk' : b.buffer? h' with
    | none => rfl
    | some k' =>
      have hkk : k ≠ k' := fun heq => hne (by rw [hk', heq])
      simp [Array.getElem?_modify, hkk]

theorem lines_writeAll (hh : h < b.nextHandle) (lines : Array String) :
    (b.Shares h h' → ((sink h).writeAll b lines).lines h' = b.lines h' ++ lines) ∧
      (¬b.Shares h h' → ((sink h).writeAll b lines).lines h' = b.lines h') := by
  obtain ⟨lines⟩ := lines
  induction lines generalizing b with
  | nil => simp [Sink.writeAll]
  | cons line lines ih =>
    have hstep := lines_write h' hh line
    obtain ⟨hshared, hother⟩ := ih (b := b.write h line) hh
    have hwrite : (sink h).writeAll b ⟨line :: lines⟩ =
        (sink h).writeAll (b.write h line) ⟨lines⟩ := by
      simp [Sink.writeAll, sink]
    rw [hwrite]
    constructor
    · intro hs
      rw [hshared hs, hstep.1 hs]
      simp
    · intro hs
      rw [hother hs, hstep.2 hs]

end Buffers

/-! ## The main result -/

theorem Run.ofEnding_prepend (lines : Array String) (r : Ending Completion) :
    Run.ofEnding (r.prepend lines) =
      ⟨(Run.ofEnding r).result, (Run.ofEnding r).store, lines ++ r.printed⟩ := by
  cases r <;> rfl

theorem Run.ofEnding_quiet (r : Ending Completion) :
    Run.ofEnding r.quiet = ⟨(Run.ofEnding r).result, (Run.ofEnding r).store, #[]⟩ := by
  cases r <;> rfl

/-- A program only adds to its output, and does not look at it. Whatever lines are there before, the
run leaves them, followed by the same lines, with the same result, also if that is an error, and
the same store. If the lines are written to a sink one by one, as they are printed, the program ends
in the same way and the sink gets the same lines. So does an array, and a buffer, which shows
them through every handle to it. -/
theorem Program.execute_output (p : Program) (host : Host) (config : Config) {s : Store}
    (hs : s.WellFormed) {i : ScopeId} (hi : i < s.scopes.size) :
    ∃ (result : Except Error (Option Value)) (t : Store) (out : Array String),
      (∀ printed, p.execute host config s i printed = ⟨result, t, printed ++ out⟩) ∧
      (∃ r, Run.ofEnding r = ⟨result, t, #[]⟩ ∧ ∀ (σ : Type) (sink : Sink σ) (st : σ),
        (∀ r' st', (Task.stmts p.body).Delivers host sink ⟨s, i, config, 0, #[]⟩ st r' st' ↔
          r' = r ∧ st' = sink.writeAll st out) ∧
        (p.execute host config s i #[]).deliver sink st = sink.writeAll st out) ∧
      (∀ lines, Sink.array.writeAll lines out = lines ++ out) ∧
      ∀ (b : Buffers) (h h' : Nat), h < b.nextHandle →
        (b.clone h).Shares h b.nextHandle ∧
        (b.Shares h h' → ((Buffers.sink h).writeAll b out).lines h' = b.lines h' ++ out) ∧
        (¬b.Shares h h' → ((Buffers.sink h).writeAll b out).lines h' = b.lines h') := by
  have hfits : (Task.stmts p.body).Fits ⟨s, i, config, 0, #[]⟩ := ⟨hs, hi, by simp⟩
  have hexecute : ∀ printed, p.execute host config s i printed = Run.ofEnding
      (((Task.stmts p.body).run host ⟨s, i, config, 0, #[]⟩).prepend printed) := by
    intro printed
    rw [p.execute_eq, ← Task.run_prepend hfits]
    simp [Machine.prepend]
  generalize hr : (Task.stmts p.body).run host ⟨s, i, config, 0, #[]⟩ = r at hexecute
  refine ⟨(Run.ofEnding r).result, (Run.ofEnding r).store, r.printed, fun printed => ?_,
    ⟨r.quiet, Run.ofEnding_quiet r, fun σ sink st => ⟨fun r' st' => ?_, ?_⟩⟩,
    fun lines => Sink.writeAll_array lines r.printed,
    fun b h h' hh => ⟨Buffers.shares_clone hh, Buffers.lines_writeAll hh r.printed⟩⟩
  · rw [hexecute, Run.ofEnding_prepend]
  · rw [← hr]
    exact Task.delivers_iff hfits rfl
  · rw [hexecute, Run.ofEnding_prepend]
    simp [Run.deliver]

/-- `fn f() { print "in"; } print f(); f(x);` -/
def Program.printsThenFails : Program :=
  ⟨⟨0, 39⟩, [
    .function (.mk ⟨0, 22⟩ (some ⟨"f", ⟨3, 4⟩⟩) [] ⟨7, 22⟩
      [.print ⟨9, 20⟩ (.literal ⟨15, 19⟩ (.string "in"))]),
    .print ⟨23, 33⟩ (.call ⟨29, 32⟩ (.ident ⟨"f", ⟨29, 30⟩⟩) []),
    .expr ⟨34, 39⟩ (.call ⟨34, 38⟩ (.ident ⟨"f", ⟨34, 35⟩⟩) [.ident ⟨"x", ⟨36, 37⟩⟩])]⟩

/-- Two lines are printed, one of them in a call, before a name is not found. They are read through
the handle that they were written through, and through another one that was cloned from it. -/
theorem Program.execute_output_printsThenFails :
    let s := Store.empty.openRoot .allow
    let b := Buffers.empty.create.clone 0
    s.WellFormed ∧ 0 < s.scopes.size ∧ 0 < b.nextHandle ∧ b.Shares 0 1 ∧
      ∃ (result : Except Error (Option Value)) (t : Store) (out : Array String),
        (∀ printed, Program.printsThenFails.execute ⟨0⟩ .standard s 0 printed =
          ⟨result, t, printed ++ out⟩) ∧
        out = #["in", "nil"] ∧ result = .error ⟨.undefinedVariable "x", some ⟨36, 37⟩⟩ ∧
        ((Buffers.sink 0).writeAll (b.write 1 "before") out).lines 1 =
          #["before", "in", "nil"] := by
  intro s b
  have hs : s.WellFormed := Store.WellFormed.empty.openRoot .allow
  have hi : 0 < s.scopes.size := by decide
  have hb : 0 < b.nextHandle := by decide
  have hshares : b.Shares 0 1 := Buffers.shares_clone (b := Buffers.empty.create) Nat.zero_lt_one
  have hrun : (Program.printsThenFails.execute ⟨0⟩ .standard (Store.empty.openRoot .allow) 0
      #[]).printed = #["in", "nil"] := by cbv
  have hresult : (Program.printsThenFails.execute ⟨0⟩ .standard (Store.empty.openRoot .allow) 0
      #[]).result = .error ⟨.undefinedVariable "x", some ⟨36, 37⟩⟩ := by cbv
  obtain ⟨result, t, out, hexecute, -, -, hbuffers⟩ :=
    Program.execute_output .printsThenFails ⟨0⟩ .standard hs hi
  rw [hexecute #[]] at hrun hresult
  have hout : out = #["in", "nil"] := by simpa using hrun
  refine ⟨hs, hi, hb, hshares, result, t, out, hexecute, hout, hresult, ?_⟩
  have hlines : (b.write 1 "before").lines 1 = #["before"] := by decide
  rw [((hbuffers (b.write 1 "before") 0 1 hb).2.1 hshares), hlines, hout]
  rfl

end Scoped
