import Scoped.Proofs.Termination

/-!
# Contracts of tasks

A contract says what must hold when a task starts and what then holds when it ends, in a value
or in an error. A plan upholds a contract if each task that it asks for may start, given
only that the tasks before it ended as the contract says (`Plan.Upholds`). So the constructs are
looked at one at a time, and no run of the evaluator is looked at.

If the plans of all tasks uphold a contract, every task that comes up in a run may start
(`Contract.Kept.needs`), and every task that ends does so as the contract says
(`Contract.Kept.ends`, `Contract.Kept.run`).
-/

namespace Scoped

variable {α β : Type} {host : Host} {m m' : Machine}

/-- What holds when a task starts, and what holds when it ends. -/
structure Contract where
  pre : {α : Type} → Task α → Machine → Prop
  post : {α : Type} → Task α → Machine → Ending α → Prop

namespace Plan

/-- The plan asks only for tasks that may start, and ends in a way that has a property, if the
tasks that it asks for end as the contract says. -/
def Upholds (C : Contract) (Q : Ending α → Prop) : Plan α → Prop
  | .done r => Q r
  | .walk s x i next => ∀ j, s.Walks x i j → (next j).Upholds C Q
  | .ask t m next => C.pre t m ∧ ∀ r, C.post t m r → (next r).Upholds C Q

variable {C : Contract} {Q : Ending α → Prop}

theorem upholds_after {t : Task β} {next : β → Machine → Plan α} (ht : C.pre t m)
    (hok : ∀ b m', C.post t m (.ok b m') → (next b m').Upholds C Q)
    (herror : ∀ e m', C.post t m (.error e m') → Q (.error e m')) :
    (after t m next).Upholds C Q := by
  refine ⟨ht, fun r hr => ?_⟩
  cases r with
  | ok b m' => exact hok b m' hr
  | error e m' => exact herror e m' hr

end Plan

namespace Contract

/-- The plans of all tasks uphold the contract. -/
def Kept (C : Contract) (host : Host) : Prop :=
  ∀ (α : Type) (t : Task α) (m : Machine), C.pre t m → (t.plan host m).Upholds C (C.post t m)

variable {C : Contract} (hC : C.Kept host)

include hC

theorem Kept.of_upholds {p : Plan α} {r : Ending α} (h : p.Ends host r) {Q : Ending α → Prop}
    (hp : p.Upholds C Q) : Q r := by
  induction h with
  | done r => exact hp
  | walk hw _ ih => exact ih (hp _ hw)
  | @ask α β t m q next r _ _ ihTask ihNext => exact ihNext (hp.2 q (ihTask (hC β t m hp.1)))

/-- A task that may start ends as the contract says. -/
theorem Kept.ends {t : Task α} {r : Ending α} (ht : C.pre t m) (h : t.Ends host m r) :
    C.post t m r :=
  hC.of_upholds h (hC α t m ht)

/-- So does the evaluator. -/
theorem Kept.run {t : Task α} (ht : C.pre t m) (hfit : t.Fits m) :
    C.post t m (t.run host m) :=
  hC.ends ht ((t.ends_iff hfit).2 rfl)

theorem Kept.pre_of_asks {t : Task β} {p : Plan α} (h : p.Asks host t m) {Q : Ending α → Prop}
    (hp : p.Upholds C Q) : C.pre t m := by
  induction h with
  | now => exact hp.1
  | walk hw _ ih => exact ih (hp _ hw)
  | later hq _ ih => exact ih (hp.2 _ (hC.ends hp.1 hq))

/-- Every task that comes up may start. -/
theorem Kept.needs {t₀ : Task α} {t : Task β} (h₀ : C.pre t₀ m) (h : t₀.Needs host m t m') :
    C.pre t m' := by
  induction h with
  | self => exact h₀
  | asks _ hasks ih => exact hC.pre_of_asks hasks (hC _ _ _ ih)

end Contract

end Scoped
