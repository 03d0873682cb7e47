import Scoped.Proofs.Coupling
import Scoped.Proofs.Erasure

/-!
# Positions do not matter

Programs that are equal without their spans are alike in the placement in which everything may
stand anywhere, and the other way round (`Stmt.alikeAll_iff`). So they run in lockstep, in stores
whose closures are equal without their spans, and end equally but for spans
(`Program.execute_erase`). The check does not look at spans either, except to say where it
failed (`Program.check_erase`). `Program.positions_irrelevant` states both.
-/

namespace Scoped

/-! ## Alike without spans -/

/-- Everything may stand and arise anywhere. -/
def Placement.anywhere : Placement where
  spans _ _ := True
  refl _ := trivial
  arises _ _ _ := True

namespace Ident

variable {x y : Ident}

theorem matches_iff : x.Matches .anywhere y ↔ y.erase = x.erase := by
  refine ⟨fun h => by rw [erase, erase, h.name], fun h => ⟨?_, trivial⟩⟩
  exact (Ident.mk.inj h).1

theorem alike_iff : x.Alike .anywhere y ↔ y.erase = x.erase :=
  ⟨fun h => matches_iff.1 h.toMatches, fun h => ⟨matches_iff.2 h, trivial⟩⟩

theorem forall₂_alike_iff {xs ys : List Ident} :
    xs.Forall₂ (Ident.Alike .anywhere) ys ↔ ys.map Ident.erase = xs.map Ident.erase := by
  induction xs generalizing ys with
  | nil => simp
  | cons x xs ih =>
    cases ys with
    | nil => simp
    | cons y ys => simp only [List.forall₂_cons, alike_iff, ih, List.map_cons, List.cons.injEq]

theorem rel_matches_iff {x y : Option Ident} :
    Option.Rel (Ident.Matches .anywhere) x y ↔ y.map Ident.erase = x.map Ident.erase := by
  cases x <;> cases y <;> simp [matches_iff]

theorem rel_alike_iff {x y : Option Ident} :
    Option.Rel (Ident.Alike .anywhere) x y ↔ y.map Ident.erase = x.map Ident.erase := by
  cases x <;> cases y <;> simp [alike_iff]

end Ident

mutual

theorem Expr.erase_of_alike : ∀ {e f : Expr}, e.Alike .anywhere f → f.erase = e.erase
  | .literal .., _, .literal _ => rfl
  | .ident _, _, .ident hx _ => by simp only [Expr.erase, Ident.matches_iff.1 hx]
  | .assign .., _, .assign _ hx _ he => by
    simp only [Expr.erase, Ident.matches_iff.1 hx, Expr.erase_of_alike he]
  | .unary .., _, .unary _ _ he => by simp only [Expr.erase, Expr.erase_of_alike he]
  | .binary .., _, .binary _ _ hl hr => by
    simp only [Expr.erase, Expr.erase_of_alike hl, Expr.erase_of_alike hr]
  | .logical .., _, .logical _ hl hr => by
    simp only [Expr.erase, Expr.erase_of_alike hl, Expr.erase_of_alike hr]
  | .call .., _, .call _ _ hf hargs => by
    simp only [Expr.erase, Expr.erase_of_alike hf, Expr.eraseAll_of_alike hargs]
  | .function _, _, .function hd => by simp only [Expr.erase, FunctionDef.erase_of_alike hd]

theorem Expr.eraseAll_of_alike : ∀ {es fs : List Expr}, Expr.AlikeAll .anywhere es fs →
    Expr.eraseAll fs = Expr.eraseAll es
  | [], _, .nil => rfl
  | _ :: _, _, .cons he hes => by
    simp only [Expr.eraseAll, Expr.erase_of_alike he, Expr.eraseAll_of_alike hes]

theorem Stmt.erase_of_alike : ∀ {a b : Stmt}, a.Alike .anywhere b → b.erase = a.erase
  | .expr .., _, .expr _ he | .print .., _, .print _ he => by
    simp only [Stmt.erase, Expr.erase_of_alike he]
  | .ret _ none, _, .ret _ => rfl
  | .ret _ (some _), _, .retValue _ he => by simp only [Stmt.erase, Expr.erase_of_alike he]
  | .block .., _, .block _ hb => by simp only [Stmt.erase, Stmt.eraseAll_of_alike hb]
  | .bind _ _ none, _, .bind _ hx => by simp only [Stmt.erase, Ident.alike_iff.1 hx]
  | .bind _ _ (some _), _, .bindValue _ hx he => by
    simp only [Stmt.erase, Ident.alike_iff.1 hx, Expr.erase_of_alike he]
  | .function _, _, .function hd _ => by simp only [Stmt.erase, FunctionDef.erase_of_alike hd]
  | .cond _ _ _ none, _, .cond _ he ha => by
    simp only [Stmt.erase, Expr.erase_of_alike he, Stmt.erase_of_alike ha]
  | .cond _ _ _ (some _), _, .condElse _ he ha hb => by
    simp only [Stmt.erase, Expr.erase_of_alike he, Stmt.erase_of_alike ha, Stmt.erase_of_alike hb]

theorem Stmt.eraseAll_of_alike : ∀ {as bs : List Stmt}, Stmt.AlikeAll .anywhere as bs →
    Stmt.eraseAll bs = Stmt.eraseAll as
  | [], _, .nil => rfl
  | _ :: _, _, .cons ha has => by
    simp only [Stmt.eraseAll, Stmt.erase_of_alike ha, Stmt.eraseAll_of_alike has]

theorem FunctionDef.erase_of_alike : ∀ {d d' : FunctionDef}, d.Alike .anywhere d' →
    d'.erase = d.erase
  | .mk .., _, .mk _ _ hid hparams hbody => by
    simp only [FunctionDef.erase, Ident.rel_matches_iff.1 hid, Ident.forall₂_alike_iff.1 hparams,
      Stmt.eraseAll_of_alike hbody]

end

mutual

theorem Expr.alike_of_erase : ∀ {e f : Expr}, f.erase = e.erase → e.Alike .anywhere f
  | .literal .., f, h => by
    cases f <;> simp [Expr.erase] at h
    subst h
    exact .literal trivial
  | .ident _, f, h => by
    cases f <;> simp [Expr.erase] at h
    exact .ident (Ident.matches_iff.2 h) trivial
  | .assign .., f, h => by
    cases f <;> simp [Expr.erase] at h
    exact .assign trivial (Ident.matches_iff.2 h.1) trivial (Expr.alike_of_erase h.2)
  | .unary .., f, h => by
    cases f <;> simp [Expr.erase] at h
    obtain ⟨rfl, h⟩ := h
    exact .unary trivial (fun _ => trivial) (Expr.alike_of_erase h)
  | .binary .., f, h => by
    cases f <;> simp [Expr.erase] at h
    obtain ⟨rfl, hl, hr⟩ := h
    exact .binary trivial (fun _ => trivial) (Expr.alike_of_erase hl) (Expr.alike_of_erase hr)
  | .logical .., f, h => by
    cases f <;> simp [Expr.erase] at h
    obtain ⟨rfl, hl, hr⟩ := h
    exact .logical trivial (Expr.alike_of_erase hl) (Expr.alike_of_erase hr)
  | .call .., f, h => by
    cases f <;> simp [Expr.erase] at h
    exact .call trivial (fun _ _ => trivial) (Expr.alike_of_erase h.1) (Expr.alikeAll_of_erase h.2)
  | .function _, f, h => by
    cases f <;> simp [Expr.erase] at h
    exact .function (FunctionDef.alike_of_erase h)

theorem Expr.alikeAll_of_erase : ∀ {es fs : List Expr}, Expr.eraseAll fs = Expr.eraseAll es →
    Expr.AlikeAll .anywhere es fs
  | [], fs, h => by
    cases fs <;> simp [Expr.eraseAll] at h
    exact .nil
  | _ :: _, fs, h => by
    cases fs <;> simp [Expr.eraseAll] at h
    exact .cons (Expr.alike_of_erase h.1) (Expr.alikeAll_of_erase h.2)

theorem Stmt.alike_of_erase : ∀ {a b : Stmt}, b.erase = a.erase → a.Alike .anywhere b
  | .expr .., b, h => by
    cases b using Stmt.erase.fun_cases <;> simp [Stmt.erase] at h
    exact .expr trivial (Expr.alike_of_erase h)
  | .print .., b, h => by
    cases b using Stmt.erase.fun_cases <;> simp [Stmt.erase] at h
    exact .print trivial (Expr.alike_of_erase h)
  | .ret _ none, b, h => by
    cases b using Stmt.erase.fun_cases <;> simp [Stmt.erase] at h
    exact .ret trivial
  | .ret _ (some _), b, h => by
    cases b using Stmt.erase.fun_cases <;> simp [Stmt.erase] at h
    exact .retValue trivial (Expr.alike_of_erase h)
  | .block .., b, h => by
    cases b using Stmt.erase.fun_cases <;> simp [Stmt.erase] at h
    exact .block trivial (Stmt.alikeAll_of_erase h)
  | .bind _ _ none, b, h => by
    cases b using Stmt.erase.fun_cases <;> simp [Stmt.erase] at h
    exact .bind trivial (Ident.alike_iff.2 h)
  | .bind _ _ (some _), b, h => by
    cases b using Stmt.erase.fun_cases <;> simp [Stmt.erase] at h
    exact .bindValue trivial (Ident.alike_iff.2 h.1) (Expr.alike_of_erase h.2)
  | .function d, b, h => by
    cases b using Stmt.erase.fun_cases <;> simp [Stmt.erase] at h
    have hid := congrArg FunctionDef.id h
    rw [FunctionDef.id_erase, FunctionDef.id_erase] at hid
    exact .function (FunctionDef.alike_of_erase h) (Ident.rel_alike_iff.2 hid)
  | .cond _ _ _ none, b, h => by
    cases b using Stmt.erase.fun_cases <;> simp [Stmt.erase] at h
    exact .cond trivial (Expr.alike_of_erase h.1) (Stmt.alike_of_erase h.2)
  | .cond _ _ _ (some _), b, h => by
    cases b using Stmt.erase.fun_cases <;> simp [Stmt.erase] at h
    exact .condElse trivial (Expr.alike_of_erase h.1) (Stmt.alike_of_erase h.2.1)
      (Stmt.alike_of_erase h.2.2)

theorem Stmt.alikeAll_of_erase : ∀ {as bs : List Stmt}, Stmt.eraseAll bs = Stmt.eraseAll as →
    Stmt.AlikeAll .anywhere as bs
  | [], bs, h => by
    cases bs <;> simp [Stmt.eraseAll] at h
    exact .nil
  | _ :: _, bs, h => by
    cases bs <;> simp [Stmt.eraseAll] at h
    exact .cons (Stmt.alike_of_erase h.1) (Stmt.alikeAll_of_erase h.2)

theorem FunctionDef.alike_of_erase : ∀ {d d' : FunctionDef}, d'.erase = d.erase →
    d.Alike .anywhere d'
  | .mk .., .mk .., h => by
    simp only [FunctionDef.erase, FunctionDef.mk.injEq, true_and] at h
    exact .mk trivial trivial (Ident.rel_matches_iff.2 h.1) (Ident.forall₂_alike_iff.2 h.2.1)
      (Stmt.alikeAll_of_erase h.2.2)

end

/-- Statements are alike anywhere exactly if they are equal without their spans. -/
theorem Stmt.alikeAll_iff {as bs : List Stmt} :
    Stmt.AlikeAll .anywhere as bs ↔ Stmt.eraseAll bs = Stmt.eraseAll as :=
  ⟨Stmt.eraseAll_of_alike, Stmt.alikeAll_of_erase⟩

/-! ## Values, stores and runs without spans -/

/-- The function without the spans of its definition. -/
def Function.erase : Function → Function
  | .closure n d i => .closure n d.erase i
  | .native n nat => .native n nat

/-- The value without spans. -/
def Value.erase : Value → Value
  | .function f => .function f.erase
  | v => v

theorem Function.alike_iff {f g : Function} : f.Alike .anywhere g ↔ g.erase = f.erase := by
  constructor
  · intro h
    cases h with
    | closure hd => simp only [erase, FunctionDef.erase_of_alike hd]
    | native => rfl
  · intro h
    cases f <;> cases g <;> simp only [erase, reduceCtorEq, closure.injEq, native.injEq] at h
    · obtain ⟨rfl, hd, rfl⟩ := h
      exact .closure (FunctionDef.alike_of_erase hd)
    · obtain ⟨rfl, rfl⟩ := h
      exact .native

theorem Value.alike_iff {v w : Value} : v.Alike .anywhere w ↔ w.erase = v.erase := by
  constructor
  · intro h
    cases h with
    | function hf => simp only [erase, Function.alike_iff.1 hf]
    | nil | bool | number | string => rfl
  · intro h
    cases v <;> cases w <;> simp only [erase, reduceCtorEq, bool.injEq, number.injEq,
      string.injEq, function.injEq] at h
    · exact .nil
    · exact h ▸ .bool
    · exact h ▸ .number
    · exact h ▸ .string
    · exact .function (Function.alike_iff.2 h)

theorem Value.rel_alike_iff {v w : Option Value} :
    Option.Rel (Value.Alike .anywhere) v w ↔ w.map Value.erase = v.map Value.erase := by
  cases v <;> cases w <;> simp [Value.alike_iff]

/-- Two stores that differ in spans only. -/
structure Store.EqErased (s t : Store) : Prop where
  size : t.scopes.size = s.scopes.size
  nextIdentity : t.nextIdentity = s.nextIdentity
  outer? : ∀ i, t.outer? i = s.outer? i
  policy : ∀ i, t.policy i = s.policy i
  function? : ∀ i, t.function? i = s.function? i
  value? : ∀ i x, (t.value? i x).map Value.erase = (s.value? i x).map Value.erase

namespace Store.EqErased

variable {s t : Store}

theorem refl (s : Store) : s.EqErased s :=
  ⟨rfl, rfl, fun _ => rfl, fun _ => rfl, fun _ => rfl, fun _ _ => rfl⟩

theorem binds (h : s.EqErased t) (i : ScopeId) (x : String) : t.binds i x = s.binds i x := by
  have hx := congrArg Option.isSome (h.value? i x)
  simpa only [Option.isSome_map, binds_eq] using hx

theorem resolve? (h : s.EqErased t) (i : ScopeId) (x : String) :
    t.resolve? i x = s.resolve? i x :=
  resolve?_congr i (fun j _ => h.outer? j) fun j _ => h.binds j x

theorem get? (h : s.EqErased t) (i : ScopeId) (x : String) :
    Option.Rel (Value.Alike .anywhere) (s.get? i x) (t.get? i x) := by
  rw [Value.rel_alike_iff, get?_eq, get?_eq, h.resolve?]
  cases s.resolve? i x with
  | none => rfl
  | some j => exact h.value? j x

theorem refuses (h : s.EqErased t) (i : ScopeId) (x : String) : t.refuses i x = s.refuses i x := by
  rw [Store.refuses, Store.refuses, h.policy, h.binds]

theorem bind (h : s.EqErased t) {v w : Value} (hvw : w.erase = v.erase) (i : ScopeId)
    (x : String) : (s.bind i x v).EqErased (t.bind i x w) where
  size := by simp [h.size]
  nextIdentity := h.nextIdentity
  outer? j := by simp [h.outer?]
  policy j := by simp [h.policy]
  function? j := by simp [h.function?]
  value? j y := by
    rw [value?_bind, value?_bind, h.size]
    split
    · simp [hvw]
    · exact h.value? j y

theorem takeIdentity (h : s.EqErased t) : s.takeIdentity.EqErased t.takeIdentity where
  size := h.size
  nextIdentity := congrArg (· + 1) h.nextIdentity
  outer? := h.outer?
  policy := h.policy
  function? := h.function?
  value? := h.value?

theorem openInside (h : s.EqErased t) (i : ScopeId) (k : ScopeKind) :
    (s.openInside i k).EqErased (t.openInside i k) where
  size := by simp [h.size]
  nextIdentity := h.nextIdentity
  outer? j := by rw [outer?_openInside, outer?_openInside, h.size, h.outer?]
  policy j := by rw [policy_openInside, policy_openInside, h.size, h.policy, h.policy]
  function? j := by rw [function?_openInside, function?_openInside, h.size, h.function?]
  value? j y := by simpa using h.value? j y

end Store.EqErased

/-- What a computation ends with, without the place of an error. -/
def unplaced {α : Type} (r : Except Error α) : Except Cause α := r.mapError Error.cause

theorem unplaced_eq_ok {α : Type} {r : Except Error α} {a : α} :
    unplaced r = .ok a ↔ r = .ok a := by
  cases r <;> simp [unplaced, Except.mapError]

/-- Two runs that end equally but for spans. -/
structure Run.EqErased (r r' : Run) : Prop where
  result : (unplaced r'.result).map (Option.map Value.erase) =
    (unplaced r.result).map (Option.map Value.erase)
  store : r.store.EqErased r'.store
  printed : r'.printed = r.printed

theorem Run.EqErased.result_eq_none {r r' : Run} (h : r.EqErased r') (hr : r.result = .ok none) :
    r'.result = .ok none := by
  have hresult := h.result
  rw [hr] at hresult
  cases hr' : r'.result with
  | error e => simp [hr', unplaced, Except.mapError, Except.map] at hresult
  | ok v =>
    cases v with
    | none => rfl
    | some v => simp [hr', unplaced, Except.mapError, Except.map] at hresult

/-- Two runs in stores that differ in spans only. -/
def Coupling.anywhere (config : Config) : Coupling where
  toPlacement := .anywhere
  left := config
  right := config
  stops _ := False
  rel := Store.EqErased
  limit_le := le_rfl
  limit := .inl rfl
  get? h := h.get?
  resolve? h := h.resolve?
  bind h hvw := h.bind (Value.alike_iff.1 hvw)
  refuses_of h hx := by rwa [h.refuses] at hx
  refuses h hx := .inl (by rwa [h.refuses])
  refusing := True
  refusing_of _ _ := trivial
  nextIdentity h := h.nextIdentity
  takeIdentity h := h.takeIdentity
  nextScope h := h.size
  openInside h := h.openInside

/-- Programs that are equal without their spans end equally but for spans, in stores that differ in
spans only. -/
theorem Program.execute_erase {p q : Program} (hpq : q.erase = p.erase) (host : Host)
    (config : Config) {s t : Store} (hst : s.EqErased t) (i : ScopeId) (printed : Array String) :
    (p.execute host config s i printed).EqErased (q.execute host config t i printed) := by
  have hbody : Stmt.AlikeAll .anywhere p.body q.body :=
    Stmt.alikeAll_iff.2 (congrArg Program.body hpq)
  have hresults : (Coupling.anywhere config).Results (p.execute host config s i printed)
      (q.execute host config t i printed) :=
    Coupling.results_execute (C := .anywhere config) hbody hst host i printed
  generalize p.execute host config s i printed = run at hresults ⊢
  generalize q.execute host config t i printed = run' at hresults ⊢
  cases hresults with
  | ok hvalues hstores =>
    exact ⟨congrArg Except.ok (Value.rel_alike_iff.1 hvalues), hstores, rfl⟩
  | error herrors hstores =>
    obtain ⟨-, -⟩ := herrors
    exact ⟨rfl, hstores, rfl⟩
  | stopped hstops _ => exact hstops.elim

/-! ## The check -/

theorem unplaced_bind {α β : Type} {x y : Except Error α} {f g : α → Except Error β}
    (h : unplaced x = unplaced y) (hf : ∀ a, unplaced (f a) = unplaced (g a)) :
    unplaced (x >>= f) = unplaced (y >>= g) := by
  cases x with
  | error e =>
    cases y with
    | error e' => exact congrArg Except.error (Except.error.inj h)
    | ok b => cases h
  | ok a =>
    cases y with
    | error e => cases h
    | ok b =>
      obtain rfl : a = b := Except.ok.inj h
      exact hf a

theorem Ident.checkParams_erase : ∀ (ps : List Ident) (n : Nesting),
    unplaced (Ident.checkParams (ps.map Ident.erase) n) = unplaced (Ident.checkParams ps n)
  | [], _ => rfl
  | p :: ps, n => by
    simp only [List.map_cons, Ident.checkParams, Ident.erase]
    split
    · rfl
    · exact Ident.checkParams_erase ps _

mutual

theorem Expr.check_erase : ∀ (e : Expr) (n : Nesting), unplaced (e.erase.check n) =
    unplaced (e.check n)
  | .literal .., _ => by simp only [Expr.erase, Expr.check]
  | .ident id, n => by
    simp only [Expr.erase, Expr.check, Ident.erase]
    split <;> rfl
  | .assign _ _ e, n | .unary _ _ e, n => by
    simp only [Expr.erase, Expr.check]
    exact e.check_erase n
  | .binary _ _ a b, n | .logical _ _ a b, n => by
    simp only [Expr.erase, Expr.check]
    exact unplaced_bind (a.check_erase n) b.check_erase
  | .call _ f args, n => by
    simp only [Expr.erase, Expr.check]
    exact unplaced_bind (f.check_erase n) (Expr.checkAll_eraseAll args)
  | .function d, n => by
    simp only [Expr.erase, Expr.check]
    exact d.check_erase n

theorem Expr.checkAll_eraseAll : ∀ (es : List Expr) (n : Nesting),
    unplaced (Expr.checkAll (Expr.eraseAll es) n) = unplaced (Expr.checkAll es n)
  | [], _ => rfl
  | e :: es, n => by
    simp only [Expr.eraseAll, Expr.checkAll]
    exact unplaced_bind (e.check_erase n) (Expr.checkAll_eraseAll es)

theorem Stmt.check_erase : ∀ (s : Stmt) (n : Nesting), unplaced (s.erase.check n) =
    unplaced (s.check n)
  | .expr _ e, n | .print _ e, n | .ret _ (some e), n => by
    simp only [Stmt.erase, Stmt.check]
    exact e.check_erase n
  | .ret _ none, n | .bind _ _ none, n => by simp only [Stmt.erase, Stmt.check, Ident.erase]
  | .bind _ id (some e), n => by
    simp only [Stmt.erase, Stmt.check, Ident.erase]
    exact unplaced_bind (e.check_erase _) fun _ => rfl
  | .block _ body, n => by
    simp only [Stmt.erase, Stmt.check]
    exact unplaced_bind (Stmt.checkAll_eraseAll body _) fun _ => rfl
  | .function d, n => by
    simp only [Stmt.erase, Stmt.check, FunctionDef.id_erase]
    cases d.id with
    | none => exact d.check_erase n
    | some id => exact d.check_erase _
  | .cond _ test a none, n => by
    simp only [Stmt.erase, Stmt.check]
    exact unplaced_bind (test.check_erase n) a.check_erase
  | .cond _ test a (some b), n => by
    simp only [Stmt.erase, Stmt.check]
    exact unplaced_bind (test.check_erase n) fun _ =>
      unplaced_bind (a.check_erase _) b.check_erase

theorem Stmt.checkAll_eraseAll : ∀ (ss : List Stmt) (n : Nesting),
    unplaced (Stmt.checkAll (Stmt.eraseAll ss) n) = unplaced (Stmt.checkAll ss n)
  | [], _ => rfl
  | s :: ss, n => by
    simp only [Stmt.eraseAll, Stmt.checkAll]
    exact unplaced_bind (s.check_erase n) (Stmt.checkAll_eraseAll ss)

theorem FunctionDef.check_erase : ∀ (d : FunctionDef) (n : Nesting), unplaced (d.erase.check n) =
    unplaced (d.check n)
  | .mk _ _ params _ body, n => by
    simp only [FunctionDef.erase, FunctionDef.check]
    exact unplaced_bind (Ident.checkParams_erase params _) fun _ =>
      unplaced_bind (Stmt.checkAll_eraseAll body _) fun _ => rfl

end

/-- Programs that are equal without their spans pass the check alike. -/
theorem Program.check_erase {p q : Program} (hpq : q.erase = p.erase) :
    unplaced q.check = unplaced p.check := by
  have hbody : Stmt.eraseAll q.body = Stmt.eraseAll p.body := congrArg Program.body hpq
  refine unplaced_bind ?_ fun _ => rfl
  rw [← Stmt.checkAll_eraseAll q.body, hbody, Stmt.checkAll_eraseAll]

/-! ## The main result -/

/-- Positions have no influence. Two programs that are equal without their spans both pass the
check, or both fail it for one cause. Executed in stores that differ in spans only, they end with
the same value but for spans or fail for one cause, print the same lines, and leave stores that
again differ in spans only. -/
theorem Program.positions_irrelevant {p q : Program} (hpq : q.erase = p.erase) :
    unplaced q.check = unplaced p.check ∧
      ∀ (host : Host) (config : Config) (s t : Store) (i : ScopeId) (printed : Array String),
        s.EqErased t →
        let run := p.execute host config s i printed
        let run' := q.execute host config t i printed
        (unplaced run'.result).map (Option.map Value.erase) =
            (unplaced run.result).map (Option.map Value.erase) ∧
          run.store.EqErased run'.store ∧ run'.printed = run.printed := by
  refine ⟨Program.check_erase hpq, fun host config s t i printed hst => ?_⟩
  obtain ⟨hresult, hstore, hprinted⟩ := Program.execute_erase hpq host config hst i printed
  exact ⟨hresult, hstore, hprinted⟩

/-- `fn () { print f; return x; }`, with the name `x` at a place. -/
def FunctionDef.readsFree (place : Span) : FunctionDef :=
  .mk .nowhere none [] .nowhere [
    .print .nowhere (.ident ⟨"f", .nowhere⟩), .ret .nowhere (some (.ident ⟨"x", place⟩))]

/-- `f();`, with the call at a place. -/
def Program.callsStored (place : Span) : Program :=
  ⟨.nowhere, [.expr .nowhere (.call place (.ident ⟨"f", .nowhere⟩) [])]⟩

/-- A root in which `f` is a function that reads a free name at a place. -/
def Store.withReader (place : Span) : Store :=
  (Store.empty.openRoot .allow).bind 0 "f" (.function (.closure 0 (.readsFree place) 0))

/-- A function that fails fails at its own place, in the store that it was taken from, and for the
same cause in the other one. -/
theorem Program.positions_irrelevant_readsFree :
    let here : Span := ⟨21, 22⟩
    let there : Span := ⟨4, 5⟩
    let run := (Program.callsStored here).execute ⟨0⟩ .standard (.withReader here) 0 #[]
    let run' := (Program.callsStored there).execute ⟨0⟩ .standard (.withReader there) 0 #[]
    (Program.callsStored there).erase = (Program.callsStored here).erase ∧
      (Store.withReader here).EqErased (.withReader there) ∧
      run.result = .error ⟨.undefinedVariable "x", here⟩ ∧
      run'.result = .error ⟨.undefinedVariable "x", there⟩ ∧
      unplaced (Program.callsStored there).check = unplaced (Program.callsStored here).check ∧
      run.store.EqErased run'.store ∧ run'.printed = run.printed ∧ run.printed = #["<fn>"] := by
  intro here there run run'
  have hstores : (Store.withReader here).EqErased (.withReader there) :=
    (Store.EqErased.refl (Store.empty.openRoot .allow)).bind
      (v := .function (.closure 0 (.readsFree here) 0))
      (w := .function (.closure 0 (.readsFree there) 0)) rfl 0 "f"
  have hresult : ((Program.callsStored ⟨21, 22⟩).execute ⟨0⟩ .standard (.withReader ⟨21, 22⟩) 0
      #[]).result = .error ⟨.undefinedVariable "x", some ⟨21, 22⟩⟩ := by cbv
  have hresult' : ((Program.callsStored ⟨4, 5⟩).execute ⟨0⟩ .standard (.withReader ⟨4, 5⟩) 0
      #[]).result = .error ⟨.undefinedVariable "x", some ⟨4, 5⟩⟩ := by cbv
  have hlines : ((Program.callsStored ⟨21, 22⟩).execute ⟨0⟩ .standard (.withReader ⟨21, 22⟩) 0
      #[]).printed = #["<fn>"] := by cbv
  obtain ⟨hcheck, hruns⟩ := Program.positions_irrelevant (p := .callsStored here)
    (q := .callsStored there) rfl
  obtain ⟨-, hstore, hprinted⟩ := hruns ⟨0⟩ .standard _ _ 0 #[] hstores
  exact ⟨rfl, hstores, hresult, hresult', hcheck, hstore, hprinted, hlines⟩

end Scoped
