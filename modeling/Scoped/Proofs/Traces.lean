import Scoped.Proofs.Termination

/-!
# Traces of runs

The trace of a run lists the tasks that come up in it, in the order in which they start, with the
machine that each one starts on and the way it ends (`Plan.Traces`). A task that comes up twice
is in the list twice. In a well-formed store every task has exactly one trace : `Task.exists_trace`.
-/

namespace Scoped

variable {α : Type} {host : Host} {m : Machine}

/-- A task that came up, the machine that it started on, and how it ended. -/
structure Moment where
  {α : Type}
  task : Task α
  machine : Machine
  ending : Ending α

/-- Carrying a plan out, with the tasks that come up. -/
inductive Plan.Traces (host : Host) : {α : Type} → Plan α → Ending α → List Moment → Prop
  | done {α : Type} (r : Ending α) : Traces host (.done r) r []
  | walk {α : Type} {s : Store} {x : String} {i : ScopeId} {j : Option ScopeId}
    {next : Option ScopeId → Plan α} {r : Ending α} {es : List Moment} : s.Walks x i j →
    Traces host (next j) r es → Traces host (.walk s x i next) r es
  | ask {α β : Type} {t : Task β} {m : Machine} {q : Ending β} {next : Ending β → Plan α}
    {r : Ending α} {es es' : List Moment} : Traces host (t.plan host m) q es →
    Traces host (next q) r es' → Traces host (.ask t m next) r (⟨t, m, q⟩ :: (es ++ es'))

/-- A task ends so on a machine, and this is its trace, which it starts itself. -/
def Task.Traces (host : Host) (t : Task α) (m : Machine) (r : Ending α) (es : List Moment) : Prop :=
  ∃ inner, (t.plan host m).Traces host r inner ∧ es = ⟨t, m, r⟩ :: inner

namespace Plan

variable {p : Plan α} {r r' : Ending α} {es es' : List Moment}

theorem Traces.ends (h : p.Traces host r es) : p.Ends host r := by
  induction h with
  | done r => exact .done r
  | walk hw _ ih => exact .walk hw ih
  | ask _ _ ihTask ihNext => exact .ask ihTask ihNext

theorem Ends.exists_trace (h : p.Ends host r) : ∃ es, p.Traces host r es := by
  induction h with
  | done r => exact ⟨[], .done r⟩
  | walk hw _ ih =>
    obtain ⟨es, hes⟩ := ih
    exact ⟨es, .walk hw hes⟩
  | ask _ _ ihTask ihNext =>
    obtain ⟨es, hes⟩ := ihTask
    obtain ⟨es', hes'⟩ := ihNext
    exact ⟨_, .ask hes hes'⟩

theorem Traces.unique (h : p.Traces host r es) (h' : p.Traces host r' es') : r = r' ∧ es = es' := by
  induction h generalizing es' with
  | done =>
    cases h'
    exact ⟨rfl, rfl⟩
  | walk hw _ ih =>
    cases h' with
    | walk hw' h' =>
      obtain rfl := hw.unique hw'
      exact ih h'
  | ask _ _ ihTask ihNext =>
    cases h' with
    | ask hq' h' =>
      obtain ⟨rfl, rfl⟩ := ihTask hq'
      obtain ⟨rfl, rfl⟩ := ihNext h'
      exact ⟨rfl, rfl⟩

end Plan

/-- A task has exactly one trace, which ends as the evaluator does. -/
theorem Task.exists_trace (host : Host) {t : Task α} (ht : t.Fits m) :
    ∃ es, ∀ r es', t.Traces host m r es' ↔ r = t.run host m ∧ es' = es := by
  have hends : t.Ends host m (t.run host m) := (t.ends_iff ht).2 rfl
  obtain ⟨inner, hinner⟩ := Plan.Ends.exists_trace hends
  refine ⟨⟨t, m, t.run host m⟩ :: inner, fun r es' => ⟨?_, ?_⟩⟩
  · rintro ⟨inner', h', rfl⟩
    obtain ⟨rfl, rfl⟩ := h'.unique hinner
    exact ⟨rfl, rfl⟩
  · rintro ⟨rfl, rfl⟩
    exact ⟨inner, hinner, rfl⟩

end Scoped
