import Mathlib.Data.Finmap
import Mathlib.Data.Finset.Sort
import Scoped.Proofs.Comparison
import Scoped.Proofs.Scopes

/-!
# Records as finite maps

A record answers requests one after the other : names are bound, bound names get other values, and
values and names are asked for. `EnvironmentRecord` says which operations answer them, and there are
three types that have them. The second side is a finite map that answers the same requests, and
knows nothing of how a record is kept : its keys are a set, and are listed by sorting them.

Two sides that give the same answer to one request, and correspond afterwards, give the same
answers to every sequence of requests (`Simulates.answers`). A plain record and a map correspond if
they hold the same value for every name (`DeclarativeRecord.Represents`), and a record that leaves
everything to another one corresponds to that (`Delegates.simulates`). Which names a record lists
is read off the requests : those that were created, by code point.
-/

namespace Scoped

/-- What a record can be asked to do. -/
inductive Request where
  /-- Binds a name, whether it is bound already or not. -/
  | create (x : String) (v : Value)
  /-- Gives a name another value, if it is bound. -/
  | set (x : String) (v : Value)
  | get (x : String)
  | has (x : String)
  | names

/-- What a request is answered. -/
inductive Answer where
  | done
  | truth (b : Bool)
  | value (v : Option Value)
  | names (xs : List String)

/-- The operations of a type of records. -/
class EnvironmentRecord (ρ : Type) where
  bind : ρ → String → Value → ρ
  set? : ρ → String → Value → Option ρ
  get? : ρ → String → Option Value
  has : ρ → String → Bool
  names : ρ → List String

instance : EnvironmentRecord DeclarativeRecord where
  bind := DeclarativeRecord.bind
  set? := DeclarativeRecord.set?
  get? := DeclarativeRecord.get?
  has := DeclarativeRecord.has
  names := DeclarativeRecord.names

instance : EnvironmentRecord CallRecord where
  bind := CallRecord.bind
  set? := CallRecord.set?
  get? := CallRecord.get?
  has := CallRecord.has
  names := CallRecord.names

instance : EnvironmentRecord Record where
  bind := Record.bind
  set? := Record.set?
  get? := Record.get?
  has := Record.has
  names := Record.names

/-- Names with their values, as a finite map. -/
abbrev Bindings := Finmap fun _ : String => Value

/-- A finite map after a request, and the answer. -/
def Bindings.serve (m : Bindings) : Request → Bindings × Answer
  | .create x v => (m.insert x v, .done)
  | .set x v => if x ∈ m then (m.insert x v, .truth true) else (m, .truth false)
  | .get x => (m, .value (m.lookup x))
  | .has x => (m, .truth (decide (x ∈ m)))
  | .names => (m, .names m.keys.sort)

namespace Request

variable {σ τ ρ : Type}

/-- A record after a request, and the answer. -/
def serve [EnvironmentRecord ρ] (r : ρ) : Request → ρ × Answer
  | .create x v => (EnvironmentRecord.bind r x v, .done)
  | .set x v =>
    match EnvironmentRecord.set? r x v with
    | some r => (r, .truth true)
    | none => (r, .truth false)
  | .get x => (r, .value (EnvironmentRecord.get? r x))
  | .has x => (r, .truth (EnvironmentRecord.has r x))
  | .names => (r, .names (EnvironmentRecord.names r))

/-- The state after requests that are made one after the other. -/
def after (serve : σ → Request → σ × Answer) (s : σ) (qs : List Request) : σ :=
  qs.foldl (fun s q => (serve s q).1) s

/-- The answers to requests that are made one after the other. -/
def answers (serve : σ → Request → σ × Answer) : σ → List Request → List Answer
  | _, [] => []
  | s, q :: qs => (serve s q).2 :: answers serve (serve s q).1 qs

/-- The requests create the name. -/
def Creates (qs : List Request) (x : String) : Prop := ∃ v, create x v ∈ qs

/-- A request gets the same answer from states that correspond, and they correspond afterwards. -/
def Simulates (R : σ → τ → Prop) (f : σ → Request → σ × Answer) (g : τ → Request → τ × Answer) :
    Prop :=
  ∀ s t, R s t → ∀ q, R (f s q).1 (g t q).1 ∧ (f s q).2 = (g t q).2

theorem Simulates.answers {R : σ → τ → Prop} {f : σ → Request → σ × Answer}
    {g : τ → Request → τ × Answer} (h : Simulates R f g) {s : σ} {t : τ} (hst : R s t)
    (qs : List Request) : answers f s qs = answers g t qs := by
  induction qs generalizing s t with
  | nil => rfl
  | cons q qs ih =>
    obtain ⟨hnext, hanswer⟩ := h s t hst q
    rw [Request.answers, Request.answers, hanswer, ih hnext]

/-- `f` wraps records of one type into records of another, which leave everything to them. -/
structure Delegates [EnvironmentRecord ρ] [EnvironmentRecord σ] (f : ρ → σ) : Prop where
  bind : ∀ r x v, EnvironmentRecord.bind (f r) x v = f (EnvironmentRecord.bind r x v)
  set? : ∀ r x v, EnvironmentRecord.set? (f r) x v = (EnvironmentRecord.set? r x v).map f
  get? : ∀ r x, EnvironmentRecord.get? (f r) x = EnvironmentRecord.get? r x
  has : ∀ r x, EnvironmentRecord.has (f r) x = EnvironmentRecord.has r x
  names : ∀ r, EnvironmentRecord.names (f r) = EnvironmentRecord.names r

theorem Delegates.simulates [EnvironmentRecord ρ] [EnvironmentRecord σ] {f : ρ → σ}
    (h : Delegates f) : Simulates (fun s r => s = f r) serve serve := by
  rintro _ r rfl q
  cases q with
  | create x v => exact ⟨h.bind r x v, rfl⟩
  | set x v =>
    simp only [serve, h.set?]
    cases EnvironmentRecord.set? r x v with
    | none => exact ⟨rfl, rfl⟩
    | some r' => exact ⟨rfl, rfl⟩
  | get x => exact ⟨rfl, congrArg Answer.value (h.get? r x)⟩
  | has x => exact ⟨rfl, congrArg Answer.truth (h.has r x)⟩
  | names => exact ⟨rfl, congrArg Answer.names (h.names r)⟩

end Request

open Request

namespace DeclarativeRecord

variable {r : DeclarativeRecord} {m : Bindings}

/-! ## The names of a record -/

theorem nodup_names (r : DeclarativeRecord) : r.names.Nodup :=
  (List.mergeSort_perm _ _).nodup_iff.2 r.bindings.nodup_keys

/-- Sorting puts the names into order, and each of them is there once. -/
theorem pairwise_names (r : DeclarativeRecord) : r.names.Pairwise (· < ·) := by
  have hle : r.names.Pairwise fun x y => (compare x y).isLE = true :=
    List.pairwise_mergeSort (fun _ _ _ => Std.TransCmp.isLE_trans)
      (fun x y => by
        rw [Std.OrientedOrd.eq_swap (a := y) (b := x)]
        cases compare x y <;> rfl) _
  refine (hle.and r.nodup_names).imp fun {x y} h => ?_
  rw [← Text.compare_eq_lt_iff]
  cases hxy : compare x y with
  | lt => rfl
  | eq => exact absurd (Std.LawfulEqCmp.eq_of_compare hxy) h.2
  | gt =>
    rw [hxy] at h
    exact absurd h.1 (by decide)

/-- The names of a record are their set, sorted. -/
theorem names_eq_sort (r : DeclarativeRecord) : r.names = r.names.toFinset.sort :=
  ((List.toFinset_sort _ r.nodup_names).2 (r.pairwise_names.imp le_of_lt)).symm

/-! ## One request -/

/-- The record and the map hold the same values. -/
def Represents (r : DeclarativeRecord) (m : Bindings) : Prop := ∀ x, r.get? x = m.lookup x

theorem represents_empty : empty.Represents ∅ := by
  intro x
  rw [get?_empty, Finmap.lookup_empty]

namespace Represents

theorem has_iff (h : r.Represents m) (x : String) : r.has x = true ↔ x ∈ m := by
  rw [has_eq, h x, Finmap.lookup_isSome]

theorem bind (h : r.Represents m) (x : String) (v : Value) :
    (r.bind x v).Represents (m.insert x v) := by
  intro y
  rw [get?_bind]
  by_cases hxy : x = y
  · subst hxy
    rw [if_pos rfl, Finmap.lookup_insert]
  · rw [if_neg hxy, Finmap.lookup_insert_of_ne _ (Ne.symm hxy), h y]

theorem names_eq (h : r.Represents m) : r.names = m.keys.sort := by
  have hkeys : r.names.toFinset = m.keys := by
    ext x
    rw [List.mem_toFinset, mem_names, h.has_iff, Finmap.mem_keys]
  rw [r.names_eq_sort, hkeys]

end Represents

theorem serve_set (r : DeclarativeRecord) (x : String) (v : Value) :
    serve r (.set x v) =
      if r.has x then (r.bind x v, .truth true) else (r, .truth false) := by
  simp only [serve, EnvironmentRecord.set?, set?_eq]
  by_cases hx : r.has x = true
  · simp only [if_pos hx]
  · simp only [if_neg hx]

/-- A record answers a request as the map that it represents does. -/
theorem simulates_bindings : Simulates Represents serve Bindings.serve := by
  intro r m h q
  cases q with
  | create x v => exact ⟨h.bind x v, rfl⟩
  | set x v =>
    rw [serve_set, Bindings.serve]
    by_cases hx : x ∈ m
    · rw [if_pos ((h.has_iff x).2 hx), if_pos hx]
      exact ⟨h.bind x v, rfl⟩
    · rw [if_neg (mt (h.has_iff x).1 hx), if_neg hx]
      exact ⟨h, rfl⟩
  | get x => exact ⟨h, congrArg Answer.value (h x)⟩
  | has x =>
    have hdecide : r.has x = decide (x ∈ m) := Bool.eq_iff_iff.2 (by simpa using h.has_iff x)
    exact ⟨h, congrArg Answer.truth hdecide⟩
  | names => exact ⟨h, congrArg Answer.names h.names_eq⟩

/-! ## The names after requests -/

/-- A request binds the name that it creates and no other. -/
theorem has_serve (r : DeclarativeRecord) (q : Request) (x : String) :
    (serve r q).1.has x = true ↔ r.has x = true ∨ Creates [q] x := by
  have hbind : ∀ y v, (r.bind y v).has x = true ↔ r.has x = true ∨ x = y := by
    intro y v
    rw [has_eq, has_eq, get?_bind]
    by_cases hyx : y = x
    · rw [if_pos hyx]
      exact iff_of_true rfl (.inr hyx.symm)
    · rw [if_neg hyx, or_iff_left (Ne.symm hyx)]
  cases q with
  | create y v =>
    refine (hbind y v).trans (or_congr_right ?_)
    simp [Creates]
  | set y v =>
    have hcreates : ¬Creates [.set y v] x := by simp [Creates]
    rw [or_iff_left hcreates, serve_set]
    by_cases hy : r.has y = true
    · rw [if_pos hy]
      refine (hbind y v).trans (or_iff_left_of_imp ?_)
      rintro rfl
      exact hy
    · rw [if_neg hy]
  | get y | has y | names => simp [serve, Creates]

/-- The names after requests are those before and those that were created. -/
theorem has_after (r : DeclarativeRecord) (qs : List Request) (x : String) :
    (after serve r qs).has x = true ↔ r.has x = true ∨ Creates qs x := by
  induction qs generalizing r with
  | nil => simp [after, Creates]
  | cons q qs ih =>
    have hcons : Creates (q :: qs) x ↔ Creates [q] x ∨ Creates qs x := by
      simp only [Creates, List.mem_cons, List.not_mem_nil, or_false, exists_or]
    rw [hcons, ← or_assoc, ← r.has_serve q x]
    exact ih (serve r q).1

theorem mem_names_after (qs : List Request) (x : String) :
    x ∈ (after serve empty qs).names ↔ Creates qs x := by
  rw [mem_names, has_after, has_eq, get?_empty]
  simp

end DeclarativeRecord

/-! ## Records of calls -/

/-- The record of a call leaves everything to the record inside it. -/
theorem CallRecord.delegates (function : Option String) :
    Delegates fun base => CallRecord.mk base function :=
  ⟨fun _ _ _ => rfl, fun _ _ _ => rfl, fun _ _ => rfl, fun _ _ => rfl, fun _ => rfl⟩

namespace Record

theorem delegates_declarative : Delegates declarative :=
  ⟨fun _ _ _ => rfl, fun _ _ _ => rfl, fun _ _ => rfl, fun _ _ => rfl, fun _ => rfl⟩

theorem delegates_call : Delegates call :=
  ⟨fun _ _ _ => rfl, fun _ _ _ => rfl, fun _ _ => rfl, fun _ _ => rfl, fun _ => rfl⟩

/-- A record that starts empty answers every sequence of requests as a finite map does. Its names
are listed strictly by code point, each once, and are those that were created, whatever the order
in which that happened and the values. The record of a call answers every sequence as the plain one
does, and so does the record of a scope, whatever that was opened for. -/
theorem refines_finite_map (qs : List Request) :
    answers serve DeclarativeRecord.empty qs = answers Bindings.serve ∅ qs ∧
      ((after serve DeclarativeRecord.empty qs).names.Pairwise fun x y =>
        Text.codePoints x < Text.codePoints y) ∧
      (after serve DeclarativeRecord.empty qs).names.Nodup ∧
      (∀ x, x ∈ (after serve DeclarativeRecord.empty qs).names ↔ Creates qs x) ∧
      (∀ qs', (∀ x, Creates qs' x ↔ Creates qs x) →
        (after serve DeclarativeRecord.empty qs').names =
          (after serve DeclarativeRecord.empty qs).names) ∧
      (∀ function, answers serve (CallRecord.empty function) qs =
        answers serve DeclarativeRecord.empty qs) ∧
      ∀ kind, answers serve (Record.empty kind) qs =
        answers serve DeclarativeRecord.empty qs := by
  have hcall : ∀ function, answers serve (CallRecord.empty function) qs =
      answers serve DeclarativeRecord.empty qs := fun function =>
    (CallRecord.delegates function).simulates.answers rfl qs
  refine ⟨DeclarativeRecord.simulates_bindings.answers DeclarativeRecord.represents_empty qs,
    (DeclarativeRecord.pairwise_names _).imp Text.codePoints_lt_iff.2,
    DeclarativeRecord.nodup_names _, DeclarativeRecord.mem_names_after qs, fun qs' hsame => ?_,
    hcall, fun kind => ?_⟩
  · rw [DeclarativeRecord.names_eq_sort, (after serve DeclarativeRecord.empty qs).names_eq_sort]
    congr 1
    ext x
    rw [List.mem_toFinset, List.mem_toFinset, DeclarativeRecord.mem_names_after,
      DeclarativeRecord.mem_names_after, hsame]
  · cases kind with
    | block => exact delegates_declarative.simulates.answers rfl qs
    | call function => exact (delegates_call.simulates.answers rfl qs).trans (hcall function)

end Record

end Scoped
