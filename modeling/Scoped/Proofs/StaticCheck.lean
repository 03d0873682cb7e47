import Mathlib.Data.List.Nodup
import Scoped.Program.Check
import Scoped.Proofs.Sites

/-!
# The check before a run is exact

The check keeps a stack of scopes, looks at the innermost one only, and marks names as it
goes. What it decides can be said without a stack : `Site.Offends` is about one place and
what is around it, a parameter with a name that stands before it, or a name that is read in
the initializer of the local variable of that name, outside all functions in it.

`Nesting.Reflects` is the invariant that ties the stack to the frames around a place : there
is a scope exactly inside a block or a function body, and a name of the innermost scope is
being initialized exactly if the place is in its initializer. `Site.Verdict` is what a part
of the check finds out : that no place of a list offends, or the first one that does.
`Program.check_exact` puts both together, and says which programs have no offending place.
-/

namespace Scoped

/-! ## The rule -/

namespace Frame

variable {frames : List Frame} {x y : String}

/-- Inside a block or the body of a function. -/
def IsLocal (frames : List Frame) : Prop := .block ∈ frames ∨ .body ∈ frames

/-- Inside the initializer of the local variable `x`, and inside no function within it. -/
def Initializes (frames : List Frame) (x : String) : Prop :=
  ∃ inner outer, frames = inner ++ .init x :: outer ∧ .body ∉ inner ∧ IsLocal outer

theorem not_initializes_nil : ¬Initializes [] x := by
  rintro ⟨inner, outer, h, -⟩
  simp at h

theorem not_initializes_body : ¬Initializes (.body :: frames) x := by
  rintro ⟨inner, outer, h, hbody, -⟩
  obtain ⟨rfl, h⟩ | ⟨inner', rfl, -⟩ := List.cons_eq_append_iff.1 h
  · cases h
  · simp at hbody

theorem initializes_block : Initializes (.block :: frames) x ↔ Initializes frames x := by
  constructor
  · rintro ⟨inner, outer, h, hbody, hlocal⟩
    obtain ⟨rfl, h⟩ | ⟨inner', rfl, h⟩ := List.cons_eq_append_iff.1 h
    · cases h
    · exact ⟨inner', outer, List.cons.inj h |>.2, fun hb => hbody (List.mem_cons_of_mem _ hb),
        hlocal⟩
  · rintro ⟨inner, outer, rfl, hbody, hlocal⟩
    exact ⟨.block :: inner, outer, rfl, by simpa using hbody, hlocal⟩

theorem initializes_init :
    Initializes (.init y :: frames) x ↔ (x = y ∧ IsLocal frames) ∨ Initializes frames x := by
  constructor
  · rintro ⟨inner, outer, h, hbody, hlocal⟩
    obtain ⟨rfl, h⟩ | ⟨inner', rfl, h⟩ := List.cons_eq_append_iff.1 h
    · cases h
      exact Or.inl ⟨rfl, hlocal⟩
    · exact Or.inr ⟨inner', outer, List.cons.inj h |>.2,
        fun hb => hbody (List.mem_cons_of_mem _ hb), hlocal⟩
  · rintro (⟨rfl, hlocal⟩ | ⟨inner, outer, rfl, hbody, hlocal⟩)
    · exact ⟨[], frames, rfl, by simp, hlocal⟩
    · exact ⟨.init y :: inner, outer, rfl, by simpa using hbody, hlocal⟩

end Frame

namespace Site

variable {α β : Type} {s : Site} {xs ys : List Site} {Q : α → Prop} {R : β → Prop}

/-- A place offends with an identifier : a parameter that repeats the name of one before it, or
a name that is read in the initializer of its own variable. -/
inductive Offends : Site → Ident → ScriptFault → Prop
  | repeated {frames : List Frame} {before : List Ident} {p : Ident} :
    p.name ∈ before.map Ident.name →
    Offends ⟨frames, .param before p⟩ p (.duplicateParameter p.name)
  | read {frames : List Frame} {id : Ident} : Frame.Initializes frames id.name →
    Offends ⟨frames, .expr (.ident id)⟩ id (.readInInitializer id.name)

/-- The place offends with no identifier. -/
def Clean (s : Site) : Prop := ∀ id fault, ¬s.Offends id fault

/-- What a part of the check finds out about some places : none offends, and the check goes on
with a value of which `Q` holds, or it ends at the first one that does. -/
inductive Verdict (sites : List Site) (Q : α → Prop) : Except Error α → Prop
  | ok {a : α} : (∀ s ∈ sites, s.Clean) → Q a → Verdict sites Q (.ok a)
  | error {before after : List Site} {s : Site} {id : Ident} {fault : ScriptFault} :
    sites = before ++ s :: after → (∀ t ∈ before, t.Clean) → s.Offends id fault →
    Verdict sites Q (.error ⟨.scriptError fault, some id.span⟩)

namespace Verdict

theorem nil {a : α} (h : Q a) : Verdict [] Q (.ok a) := .ok (by simp) h

/-- The places of one part of the check come before those of the next. -/
theorem bind {x : Except Error α} {f : α → Except Error β} (hx : Verdict xs Q x)
    (hf : ∀ a, Q a → Verdict ys R (f a)) : Verdict (xs ++ ys) R (x >>= f) := by
  cases hx with
  | error hs hbefore hoff =>
    subst hs
    exact .error (List.append_assoc ..) hbefore hoff
  | @ok a hclean ha =>
    change Verdict (xs ++ ys) R (f a)
    have h := hf a ha
    generalize f a = r at h ⊢
    cases h with
    | ok hclean' hr => exact .ok (List.forall_mem_append.2 ⟨hclean, hclean'⟩) hr
    | @error before after s id fault hs hbefore hoff =>
      subst hs
      exact .error (List.append_assoc xs before _).symm
        (List.forall_mem_append.2 ⟨hclean, hbefore⟩) hoff

theorem mono {R : α → Prop} {r : Except Error α} (h : Verdict xs Q r) (hQ : ∀ a, Q a → R a) :
    Verdict xs R r := by
  cases h with
  | ok hclean ha => exact .ok hclean (hQ _ ha)
  | error hs hbefore hoff => exact .error hs hbefore hoff

theorem map {x : Except Error α} {f : α → β} (hx : Verdict xs Q x) (hf : ∀ a, Q a → R (f a)) :
    Verdict xs R (x >>= fun a => pure (f a)) := by
  have h := hx.bind fun a ha => nil (hf a ha)
  rwa [List.append_nil] at h

/-- The check ends at a place that offends. -/
theorem first {id : Ident} {fault : ScriptFault} (h : s.Offends id fault) :
    Verdict (s :: xs) Q (.error ⟨.scriptError fault, some id.span⟩) :=
  .error (List.nil_append _).symm (by simp) h

/-- A place that does not offend can be left out. -/
theorem skip {r : Except Error α} (hs : s.Clean) (hr : Verdict xs Q r) :
    Verdict (s :: xs) Q r := by
  cases hr with
  | ok hclean ha => exact .ok (List.forall_mem_cons.2 ⟨hs, hclean⟩) ha
  | error h hbefore hoff =>
    subst h
    exact .error (List.cons_append ..).symm (List.forall_mem_cons.2 ⟨hs, hbefore⟩) hoff

end Verdict

theorem clean_stmt (frames : List Frame) (s : Stmt) : Clean ⟨frames, .stmt s⟩ := by
  rintro id fault ⟨⟩

theorem clean_expr (frames : List Frame) {e : Expr} (h : ∀ id, e ≠ .ident id) :
    Clean ⟨frames, .expr e⟩ := by
  rintro id fault ⟨⟩
  exact h id rfl

end Site

open Site (Verdict clean_stmt clean_expr)

/-! ## The stack of scopes -/

namespace Nesting

variable {n n' : Nesting} {frames : List Frame} {x y : String} {b : Bool}

@[simp]
theorem leave_note : (n.note x b).leave = n.leave := by
  cases n <;> rfl

@[simp]
theorem note_eq_nil : n.note x b = [] ↔ n = [] := by
  cases n <;> simp [note]

theorem initializes_note : (n.note x b).initializes y = true ↔
    if x = y then n ≠ [] ∧ b = false else n.initializes y = true := by
  cases n with
  | nil => simp [note, initializes]
  | cons names n =>
    by_cases h : x = y <;> simp [note, initializes, Std.TreeMap.getElem?_insert, h]

theorem has_note (hn : n ≠ []) : (n.note x b).has y = true ↔ x = y ∨ n.has y = true := by
  cases n with
  | nil => exact absurd rfl hn
  | cons names n => simp [note, has, Std.TreeMap.contains_insert]

theorem initializes_enter : n.enter.initializes x = false := by
  simp [enter, initializes]

theorem has_enter : n.enter.has x = false := by
  simp [enter, has]

/-- The stack at a place with these frames around it. -/
structure Reflects (n : Nesting) (frames : List Frame) : Prop where
  nil_iff : n = [] ↔ ¬Frame.IsLocal frames
  initializes_iff : ∀ x, n.initializes x = true ↔ Frame.Initializes frames x

/-- At the places of statements no name is being initialized. -/
def Rests (frames : List Frame) : Prop := ∀ x, ¬Frame.Initializes frames x

theorem rests_block (h : Rests frames) : Rests (.block :: frames) := fun x hx =>
  h x (Frame.initializes_block.1 hx)

theorem rests_body : Rests (.body :: frames) := fun _ => Frame.not_initializes_body

theorem reflects_nil : Reflects [] [] :=
  ⟨by simp [Frame.IsLocal], fun x => by simp [initializes, Frame.not_initializes_nil]⟩

theorem reflects_block (h : Rests frames) : Reflects n.enter (.block :: frames) :=
  ⟨by simp [enter, Frame.IsLocal], fun x => by simp [initializes_enter, rests_block h x]⟩

/-- The scope of a function after its parameters were noted. -/
theorem reflects_body (hn : n ≠ []) (h : ∀ x, n.initializes x = false) :
    Reflects n (.body :: frames) :=
  ⟨by simp [hn, Frame.IsLocal], fun x => by simp [h x, rests_body x]⟩

/-- A name is being initialized in its initializer, if it is local. -/
theorem Reflects.init (hr : n.Reflects frames) (h : Rests frames) (x : String) :
    (n.note x false).Reflects (.init x :: frames) where
  nil_iff := by simpa [Frame.IsLocal] using hr.nil_iff
  initializes_iff y := by
    rw [initializes_note, Frame.initializes_init]
    have hy := h y
    have hlocal : n ≠ [] ↔ Frame.IsLocal frames := by rw [ne_eq, hr.nil_iff, not_not]
    by_cases hxy : x = y
    · simp [hxy, hy, hlocal]
    · simp [hxy, Ne.symm hxy, hr.initializes_iff y]

/-- What is noted as initialized is no longer being initialized. -/
theorem Reflects.ready (hr : n.Reflects frames) (h : Rests frames) {x : String}
    (hnil : n' = [] ↔ n = [])
    (hn' : ∀ y, x ≠ y → (n'.initializes y = true ↔ n.initializes y = true)) :
    (n'.note x true).Reflects frames where
  nil_iff := by rw [note_eq_nil, hnil, hr.nil_iff]
  initializes_iff y := by
    rw [initializes_note]
    by_cases hxy : x = y
    · simp [hxy, h y]
    · simp [hxy, hn' y hxy, hr.initializes_iff y]

/-- A declaration leaves its name initialized, with or without an initializer. -/
theorem Reflects.declared (hr : n.Reflects frames) (h : Rests frames) (x : String) :
    ((n.note x false).note x true).Reflects frames :=
  hr.ready h note_eq_nil fun y hxy => by rw [initializes_note, if_neg hxy]

end Nesting

open Nesting (Rests)

/-! ## The check finds the first place that offends -/

theorem Ident.verdict_checkParams (frames : List Frame) :
    ∀ (ps before : List Ident) {n : Nesting}, n ≠ [] →
    (∀ x, n.has x = true ↔ x ∈ before.map Ident.name) → (∀ x, n.initializes x = false) →
    Verdict (Ident.sites frames before ps)
      (fun n' : Nesting => n'.leave = n.leave ∧ n' ≠ [] ∧ ∀ x, n'.initializes x = false)
      (Ident.checkParams ps n)
  | [], _, n, hn, _, hini => .nil ⟨rfl, hn, hini⟩
  | p :: ps, before, n, hn, hhas, hini => by
    rw [Ident.sites, Ident.checkParams]
    split
    · next h => exact .first (.repeated ((hhas p.name).1 h))
    · next h =>
      have hclean : Site.Clean ⟨frames, .param before p⟩ := by
        rintro id fault ⟨hp⟩
        exact h ((hhas p.name).2 hp)
      have hhas' : ∀ x, (n.note p.name true).has x = true ↔
          x ∈ (before ++ [p]).map Ident.name := fun x => by
        rw [Nesting.has_note hn, hhas x]
        simp [or_comm, eq_comm]
      have hini' : ∀ x, (n.note p.name true).initializes x = false := fun x => by
        rw [← Bool.not_eq_true, Nesting.initializes_note]
        simp [hini x]
      have ih := verdict_checkParams frames ps (before ++ [p]) (by simpa using hn) hhas' hini'
      rw [Nesting.leave_note] at ih
      exact .skip hclean ih

mutual

theorem Expr.verdict_check : ∀ (e : Expr) {frames : List Frame} {n : Nesting},
    n.Reflects frames → Verdict (e.sites frames) (· = n) (e.check n)
  | .literal .., frames, n, h => by
    simp only [Expr.sites, Expr.check]
    exact .skip (clean_expr frames (by simp)) (.nil rfl)
  | .ident id, frames, n, h => by
    simp only [Expr.sites, Expr.check]
    split
    · next hx => exact .first (.read ((h.initializes_iff _).1 hx))
    · next hx =>
      refine .skip ?_ (.nil rfl)
      rintro id fault ⟨⟩
      next hx' => exact hx ((h.initializes_iff _).2 hx')
  | .assign _ _ e, frames, n, h | .unary _ _ e, frames, n, h => by
    simp only [Expr.sites, Expr.check]
    exact .skip (clean_expr frames (by simp)) (e.verdict_check h)
  | .binary _ _ a b, frames, n, h | .logical _ _ a b, frames, n, h => by
    simp only [Expr.sites, Expr.check]
    refine .skip (clean_expr frames (by simp)) ((a.verdict_check h).bind ?_)
    rintro n rfl
    exact b.verdict_check h
  | .call _ f args, frames, n, h => by
    simp only [Expr.sites, Expr.check]
    refine .skip (clean_expr frames (by simp)) ((f.verdict_check h).bind ?_)
    rintro n rfl
    exact Expr.verdict_checkAll args h
  | .function d, frames, n, h => by
    simp only [Expr.sites, Expr.check]
    exact .skip (clean_expr frames (by simp)) (d.verdict_check n)

theorem Expr.verdict_checkAll : ∀ (es : List Expr) {frames : List Frame} {n : Nesting},
    n.Reflects frames → Verdict (Expr.sitesAll frames es) (· = n) (Expr.checkAll es n)
  | [], frames, n, _ => by
    simp only [Expr.sitesAll, Expr.checkAll]
    exact .nil rfl
  | e :: es, frames, n, h => by
    simp only [Expr.sitesAll, Expr.checkAll]
    refine (e.verdict_check h).bind ?_
    rintro n rfl
    exact Expr.verdict_checkAll es h

/-- A statement leaves the stack as high as it was, and changes the innermost scope only. -/
theorem Stmt.verdict_check : ∀ (s : Stmt) {frames : List Frame} {n : Nesting}, Rests frames →
    n.Reflects frames → Verdict (s.sites frames)
      (fun n' : Nesting => n'.leave = n.leave ∧ n'.Reflects frames) (s.check n)
  | .expr _ e, frames, n, hq, h | .print _ e, frames, n, hq, h
  | .ret _ (some e), frames, n, hq, h => by
    simp only [Stmt.sites, Stmt.check]
    refine .skip (clean_stmt frames _) ((e.verdict_check h).mono ?_)
    rintro n rfl
    exact ⟨rfl, h⟩
  | .ret _ none, frames, n, hq, h => by
    simp only [Stmt.sites, Stmt.check]
    exact .skip (clean_stmt frames _) (.nil ⟨rfl, h⟩)
  | .bind _ id none, frames, n, hq, h => by
    simp only [Stmt.sites, Stmt.check]
    exact .skip (clean_stmt frames _) (.nil ⟨by simp, h.declared hq _⟩)
  | .bind _ id (some e), frames, n, hq, h => by
    simp only [Stmt.sites, Stmt.check]
    refine .skip (clean_stmt frames _) ((e.verdict_check (h.init hq id.name)).map ?_)
    rintro n rfl
    exact ⟨by simp, h.declared hq _⟩
  | .block _ body, frames, n, hq, h => by
    simp only [Stmt.sites, Stmt.check]
    have hbody := Stmt.verdict_checkAll body (Nesting.rests_block hq)
      (Nesting.reflects_block (n := n) hq)
    refine .skip (clean_stmt frames _) (hbody.map fun n' hn' => ?_)
    -- what is left is the stack from before the block
    have hleave : n'.leave = n := hn'.1
    rw [hleave]
    exact ⟨rfl, h⟩
  | .function d, frames, n, hq, h => by
    simp only [Stmt.sites, Stmt.check]
    refine .skip (clean_stmt frames _) ?_
    cases d.id with
    | none =>
      refine (d.verdict_check n).mono ?_
      rintro n rfl
      exact ⟨rfl, h⟩
    | some id =>
      refine (d.verdict_check (n.note id.name true)).mono ?_
      rintro n' rfl
      exact ⟨Nesting.leave_note, h.ready hq Iff.rfl fun _ _ => Iff.rfl⟩
  | .cond _ test a none, frames, n, hq, h => by
    simp only [Stmt.sites, Stmt.check]
    refine .skip (clean_stmt frames _) ((test.verdict_check h).bind ?_)
    rintro n rfl
    exact a.verdict_check hq h
  | .cond _ test a (some b), frames, n, hq, h => by
    simp only [Stmt.sites, Stmt.check]
    refine .skip (clean_stmt frames _) ((test.verdict_check h).bind ?_)
    rintro n rfl
    refine (a.verdict_check hq h).bind fun n' hn' => ?_
    rw [← hn'.1]
    exact b.verdict_check hq hn'.2

theorem Stmt.verdict_checkAll : ∀ (ss : List Stmt) {frames : List Frame} {n : Nesting},
    Rests frames → n.Reflects frames → Verdict (Stmt.sitesAll frames ss)
      (fun n' : Nesting => n'.leave = n.leave ∧ n'.Reflects frames) (Stmt.checkAll ss n)
  | [], frames, n, hq, h => by
    simp only [Stmt.sitesAll, Stmt.checkAll]
    exact .nil ⟨rfl, h⟩
  | s :: ss, frames, n, hq, h => by
    simp only [Stmt.sitesAll, Stmt.checkAll]
    refine (s.verdict_check hq h).bind fun n' hn' => ?_
    rw [← hn'.1]
    exact Stmt.verdict_checkAll ss hq hn'.2

/-- The scope of a function is gone after it, whatever is around the function. -/
theorem FunctionDef.verdict_check : ∀ (d : FunctionDef) {frames : List Frame} (n : Nesting),
    Verdict (d.sites frames) (· = n) (d.check n)
  | .mk _ _ params _ body, frames, n => by
    simp only [FunctionDef.sites, FunctionDef.check]
    have hparams := Ident.verdict_checkParams frames params [] (n := n.enter)
      (by simp [Nesting.enter]) (by simp [Nesting.has_enter]) fun x => Nesting.initializes_enter
    refine hparams.bind fun n₁ h₁ => ?_
    have hreflects : n₁.Reflects (.body :: frames) := Nesting.reflects_body h₁.2.1 h₁.2.2
    have hbody := Stmt.verdict_checkAll body Nesting.rests_body hreflects
    refine hbody.map fun n₂ h₂ => ?_
    rw [h₂.1, h₁.1]
    rfl

end

/-! ## Programs without offending places -/

mutual

/-- The names that an expression reads, those that functions within it read apart. The target
of an assignment is not read. -/
def Expr.reads : Expr → List Ident
  | .literal .. | .function _ => []
  | .ident id => [id]
  | .assign _ _ e | .unary _ _ e => e.reads
  | .binary _ _ a b | .logical _ _ a b => a.reads ++ b.reads
  | .call _ f args => f.reads ++ Expr.readsAll args

/-- The names that some expressions read. -/
def Expr.readsAll : List Expr → List Ident
  | [] => []
  | e :: es => e.reads ++ Expr.readsAll es

end

namespace Site

variable {frames : List Frame} {before : List Ident} {p id : Ident} {span : Span} {d : FunctionDef}

/-- If there is a function at the place, its parameters have different names. -/
def Distinct (s : Site) : Prop :=
  ∀ d, s.item.function? = some d → (d.params.map Ident.name).Nodup

/-- If a local variable is declared at the place, its initializer does not read it. -/
def NotCircular (s : Site) : Prop :=
  ∀ span id init, s.item = .stmt (.bind span id (some init)) → Frame.IsLocal s.frames →
    ∀ r ∈ init.reads, r.name ≠ id.name

/-- The rule, as it is about functions and variables. -/
def Proper (s : Site) : Prop := s.Distinct ∧ s.NotCircular

@[simp]
theorem clean_param : Clean ⟨frames, .param before p⟩ ↔ p.name ∉ before.map Ident.name := by
  constructor
  · intro h hp
    exact h _ _ (.repeated hp)
  · rintro h id fault ⟨hp⟩
    exact h hp

@[simp]
theorem clean_ident : Clean ⟨frames, .expr (.ident id)⟩ ↔ ¬Frame.Initializes frames id.name := by
  constructor
  · intro h hid
    exact h _ _ (.read hid)
  · rintro h id fault ⟨⟩
    next hid => exact h hid

theorem proper_param : Proper ⟨frames, .param before p⟩ := by
  constructor
  · rintro d ⟨⟩
  · rintro span id init ⟨⟩

theorem proper_expr {e : Expr} (h : ∀ d, e ≠ .function d) : Proper ⟨frames, .expr e⟩ := by
  constructor
  · intro d hd
    cases e <;> cases hd
    exact absurd rfl (h d)
  · rintro span id init ⟨⟩

theorem proper_stmt {s : Stmt} (h : ∀ d, s ≠ .function d)
    (h' : ∀ span id e, s ≠ .bind span id (some e)) : Proper ⟨frames, .stmt s⟩ := by
  constructor
  · intro d hd
    cases s <;> cases hd
    exact absurd rfl (h d)
  · rintro span id init ⟨⟩
    exact absurd rfl (h' span id init)

@[simp]
theorem proper_function :
    Proper ⟨frames, .expr (.function d)⟩ ↔ (d.params.map Ident.name).Nodup := by
  constructor
  · intro h
    exact h.1 d rfl
  · intro h
    constructor
    · rintro d ⟨⟩
      exact h
    · rintro span id init ⟨⟩

@[simp]
theorem proper_declaration :
    Proper ⟨frames, .stmt (.function d)⟩ ↔ (d.params.map Ident.name).Nodup := by
  constructor
  · intro h
    exact h.1 d rfl
  · intro h
    constructor
    · rintro d ⟨⟩
      exact h
    · rintro span id init ⟨⟩

@[simp]
theorem proper_bind {e : Expr} : Proper ⟨frames, .stmt (.bind span id (some e))⟩ ↔
    (Frame.IsLocal frames → ∀ r ∈ e.reads, r.name ≠ id.name) := by
  constructor
  · intro h
    exact h.2 span id e rfl
  · intro h
    constructor
    · rintro d ⟨⟩
    · rintro span id init ⟨⟩
      exact h

end Site

open Site (proper_param proper_expr proper_stmt)

theorem Ident.clean_sites_iff (frames : List Frame) : ∀ ps before : List Ident,
    (∀ s ∈ Ident.sites frames before ps, s.Clean) ↔
      (ps.map Ident.name).Nodup ∧ ∀ p ∈ ps, p.name ∉ before.map Ident.name
  | [], before => by simp [Ident.sites]
  | p :: ps, before => by
    rw [Ident.sites, List.forall_mem_cons, clean_sites_iff frames ps (before ++ [p])]
    simp only [Site.clean_param, List.map_append, List.map_cons, List.map_nil, List.mem_append,
      List.mem_singleton, not_or, List.nodup_cons, List.forall_mem_cons, forall_and]
    have hp : p.name ∉ ps.map Ident.name ↔ ∀ q ∈ ps, q.name ≠ p.name := by simp
    rw [hp]
    tauto

theorem Ident.proper_sites (frames : List Frame) : ∀ ps before : List Ident,
    ∀ s ∈ Ident.sites frames before ps, s.Proper
  | [], _ => by simp [Ident.sites]
  | p :: ps, before => by
    rw [Ident.sites, List.forall_mem_cons]
    exact ⟨proper_param, proper_sites frames ps (before ++ [p])⟩

mutual

/-- No place of an expression offends exactly if all are proper and what the expression reads
is not being initialized around it. -/
theorem Expr.clean_iff : ∀ (e : Expr) (frames : List Frame), (∀ s ∈ e.sites frames, s.Clean) ↔
    (∀ s ∈ e.sites frames, s.Proper) ∧ ∀ r ∈ e.reads, ¬Frame.Initializes frames r.name
  | .literal .., frames => by
    simp [Expr.sites, Expr.reads, clean_expr, proper_expr]
  | .ident id, frames => by
    simp [Expr.sites, Expr.reads, proper_expr]
  | .assign _ _ e, frames | .unary _ _ e, frames => by
    have ih := e.clean_iff frames
    simpa [Expr.sites, Expr.reads, clean_expr, proper_expr] using ih
  | .binary _ _ a b, frames | .logical _ _ a b, frames => by
    have iha := a.clean_iff frames
    have ihb := b.clean_iff frames
    simp only [Expr.sites, Expr.reads, List.forall_mem_cons, List.forall_mem_append, iha, ihb]
    simp only [clean_expr, proper_expr, ne_eq, reduceCtorEq, not_false_eq_true, implies_true,
      true_and]
    tauto
  | .call _ f args, frames => by
    have ihf := f.clean_iff frames
    have ihargs := Expr.clean_all_iff args frames
    simp only [Expr.sites, Expr.reads, List.forall_mem_cons, List.forall_mem_append, ihf, ihargs]
    simp only [clean_expr, proper_expr, ne_eq, reduceCtorEq, not_false_eq_true, implies_true,
      true_and]
    tauto
  | .function d, frames => by
    have ih := d.clean_iff frames
    simp only [Expr.sites, Expr.reads, List.forall_mem_cons, ih]
    simp [clean_expr]

theorem Expr.clean_all_iff : ∀ (es : List Expr) (frames : List Frame),
    (∀ s ∈ Expr.sitesAll frames es, s.Clean) ↔
      (∀ s ∈ Expr.sitesAll frames es, s.Proper) ∧
        ∀ r ∈ Expr.readsAll es, ¬Frame.Initializes frames r.name
  | [], frames => by simp [Expr.sitesAll, Expr.readsAll]
  | e :: es, frames => by
    have ihe := e.clean_iff frames
    have ihes := Expr.clean_all_iff es frames
    simp only [Expr.sitesAll, Expr.readsAll, List.forall_mem_append, ihe, ihes]
    tauto

theorem Stmt.clean_iff : ∀ (s : Stmt) {frames : List Frame}, Rests frames →
    ((∀ t ∈ s.sites frames, t.Clean) ↔ ∀ t ∈ s.sites frames, t.Proper)
  | .expr _ e, frames, hq | .print _ e, frames, hq | .ret _ (some e), frames, hq => by
    have ih := e.clean_iff frames
    simp only [Stmt.sites, List.forall_mem_cons, ih]
    simp [clean_stmt, proper_stmt, hq _]
  | .ret _ none, frames, hq | .bind _ _ none, frames, hq => by
    simp [Stmt.sites, clean_stmt, proper_stmt]
  | .block _ body, frames, hq => by
    have ih := Stmt.clean_all_iff body (Nesting.rests_block hq)
    simp only [Stmt.sites, List.forall_mem_cons, ih]
    simp [clean_stmt, proper_stmt]
  | .bind _ id (some e), frames, hq => by
    have ih := e.clean_iff (.init id.name :: frames)
    have hini : ∀ x, Frame.Initializes (.init id.name :: frames) x ↔
        x = id.name ∧ Frame.IsLocal frames := fun x => by
      rw [Frame.initializes_init, or_iff_left (hq x)]
    simp only [Stmt.sites, List.forall_mem_cons, ih, hini, Site.proper_bind, clean_stmt]
    tauto
  | .function d, frames, hq => by
    have ih := d.clean_iff frames
    simp only [Stmt.sites, List.forall_mem_cons, ih]
    simp [clean_stmt]
  | .cond _ test a none, frames, hq => by
    have ht := test.clean_iff frames
    have ha := a.clean_iff hq
    simp only [Stmt.sites, List.forall_mem_cons, List.forall_mem_append, ht, ha]
    simp [clean_stmt, proper_stmt, hq _]
  | .cond _ test a (some b), frames, hq => by
    have ht := test.clean_iff frames
    have ha := a.clean_iff hq
    have hb := b.clean_iff hq
    simp only [Stmt.sites, List.forall_mem_cons, List.forall_mem_append, ht, ha, hb]
    simp [clean_stmt, proper_stmt, hq _]

theorem Stmt.clean_all_iff : ∀ (ss : List Stmt) {frames : List Frame}, Rests frames →
    ((∀ t ∈ Stmt.sitesAll frames ss, t.Clean) ↔ ∀ t ∈ Stmt.sitesAll frames ss, t.Proper)
  | [], frames, _ => by simp [Stmt.sitesAll]
  | s :: ss, frames, hq => by
    simp only [Stmt.sitesAll, List.forall_mem_append, s.clean_iff hq, Stmt.clean_all_iff ss hq]

theorem FunctionDef.clean_iff : ∀ (d : FunctionDef) (frames : List Frame),
    (∀ s ∈ d.sites frames, s.Clean) ↔
      (d.params.map Ident.name).Nodup ∧ ∀ s ∈ d.sites frames, s.Proper
  | .mk _ _ params _ body, frames => by
    have hparams := Ident.clean_sites_iff frames params []
    have hproper := iff_true_intro (Ident.proper_sites frames params [])
    have hrests : Rests (.body :: frames) := Nesting.rests_body
    simp only [FunctionDef.sites, List.forall_mem_append, hparams, hproper,
      Stmt.clean_all_iff body hrests, FunctionDef.params]
    simp

end

/-! ## The main result -/

/-- The parameters of every function have different names. -/
def Program.ParamsDistinct (p : Program) : Prop := ∀ s ∈ p.sites, s.Distinct

/-- No local variable is read in its own initializer, outside the functions in it. -/
def Program.NoneCircular (p : Program) : Prop := ∀ s ∈ p.sites, s.NotCircular

theorem Program.verdict_check (p : Program) : Verdict p.sites (fun _ => True) p.check := by
  have hrests : Rests [] := fun _ => Frame.not_initializes_nil
  exact (Stmt.verdict_checkAll p.body hrests Nesting.reflects_nil).map fun _ _ => trivial

theorem Program.clean_iff (p : Program) :
    (∀ s ∈ p.sites, s.Clean) ↔ p.ParamsDistinct ∧ p.NoneCircular := by
  have hrests : Rests [] := fun _ => Frame.not_initializes_nil
  rw [Program.sites, Stmt.clean_all_iff p.body hrests]
  exact forall₂_and

/-- A program passes the check exactly if the parameters of every function have different names
and no local variable is read in its own initializer. A program that does not pass fails with
a syntax error at the first identifier that offends, in the order of the text. -/
theorem Program.check_exact (p : Program) :
    (p.check = .ok () ↔ p.ParamsDistinct ∧ p.NoneCircular) ∧
      (p.check = .ok () ∨ ∃ before s after id fault, p.sites = before ++ s :: after ∧
        (∀ t ∈ before, t.Clean) ∧ s.Offends id fault ∧
        p.check = .error ⟨.scriptError fault, some id.span⟩) := by
  rw [← p.clean_iff]
  have h := p.verdict_check
  generalize p.check = r at h ⊢
  cases h with
  | ok hclean _ => exact ⟨iff_of_true rfl hclean, Or.inl rfl⟩
  | @error before after s id fault hs hbefore hoff =>
    refine ⟨iff_of_false (by simp) fun hclean => ?_, Or.inr ⟨before, s, after, id, fault, hs,
      hbefore, hoff, rfl⟩⟩
    exact hclean s (by simp [hs]) id fault hoff

end Scoped
