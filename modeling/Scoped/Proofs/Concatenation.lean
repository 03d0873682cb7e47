import Scoped.Proofs.Completeness
import Scoped.Proofs.Declarations
import Scoped.Proofs.Positions
import Scoped.Proofs.Soundness
import Scoped.Proofs.StaticCheck

/-!
# One script after the other

Two scripts with a line break between them are a script. Its tokens are those of the first one
and then those of the second one, since the line break ends a comment and every token
(`Lexes.append_line`), and so are its statements (`Program.statements_concat`).

To run it is to run the first script and then, unless that returned or failed, the second one
in the store that the first one left : `Interpreter.runScript_concat`.
-/

namespace Scoped

open Grammar

/-! ## Reading -/

namespace Grammar

variable {cs : List Char} {ts : List Token}

/-- Tokens up to the end of a text are there with a line break and more text behind it. -/
theorem Lexes.append_line (h : Lexes ts cs []) (hts : Token.ValidAll ts) (ds : List Char) :
    Lexes ts (cs ++ '\n' :: ds) ds :=
  h.append_blank hts rfl fun b => Layout.after_line b ds

end Grammar

theorem Stmt.SpelledAll.append {as bs : List Stmt} {ts us : List Token}
    (has : Stmt.SpelledAll as ts) (hbs : Stmt.SpelledAll bs us) :
    Stmt.SpelledAll (as ++ bs) (ts ++ us) := by
  induction as generalizing ts with
  | nil =>
    cases has
    exact hbs
  | cons a as ih =>
    cases has with
    | cons ha has =>
      rw [List.append_assoc]
      exact .cons ha (ih has)

/-- The statements of two scripts are read from them with a line break in between, up to spans. -/
theorem Program.read_concat {s₁ s₂ : String} {p₁ p₂ : Program} (h₁ : Program.read s₁ = .ok p₁)
    (h₂ : Program.read s₂ = .ok p₂) : ∃ p, Program.read (s₁ ++ "\n" ++ s₂) = .ok p ∧
      p.erase = Program.erase ⟨.nowhere, p₁.body ++ p₂.body⟩ := by
  obtain ⟨ts, hspelled₁, hlex₁⟩ := Program.lexes_of_read h₁
  obtain ⟨us, hspelled₂, hlex₂⟩ := Program.lexes_of_read h₂
  have hlex : Lexes (ts ++ us) (s₁ ++ "\n" ++ s₂).toList [] := by
    have hchars : (s₁ ++ "\n" ++ s₂).toList = s₁.toList ++ '\n' :: s₂.toList := by simp
    rw [hchars]
    exact lexes_append.2 ⟨_, hlex₁.append_line hspelled₁.valid s₂.toList, hlex₂⟩
  obtain ⟨p, hread, herase⟩ := Program.read_of_lexes (p := ⟨.nowhere, _⟩)
    (hspelled₁.append hspelled₂) hlex
  refine ⟨p, hread, herase.trans ?_⟩
  simp only [Program.erase, Stmt.eraseAll_append, Stmt.eraseAll_eraseAll]

/-- Reading takes scripts one after the other to statements one after the other. Two scripts that
can be read can be read with a line break in between, and the statements are those of the first
one and then those of the second one, up to spans. -/
theorem Program.statements_concat {s₁ s₂ : String} {p₁ p₂ : Program}
    (h₁ : Program.read s₁ = .ok p₁) (h₂ : Program.read s₂ = .ok p₂) :
    ∃ p, Program.read (s₁ ++ "\n" ++ s₂) = .ok p ∧
      Stmt.eraseAll p.body = Stmt.eraseAll p₁.body ++ Stmt.eraseAll p₂.body := by
  obtain ⟨p, hread, herase⟩ := Program.read_concat h₁ h₂
  refine ⟨p, hread, ?_⟩
  rw [← Stmt.eraseAll_append]
  exact congrArg Program.body herase

/-- `return f;`, up to spans. -/
def Program.returnsFunction : Program :=
  ⟨.nowhere, [.ret .nowhere (some (.ident ⟨"f", .nowhere⟩))]⟩

theorem Program.exists_read_returnsFunction :
    ∃ p, Program.read "return f;" = .ok p ∧ p.erase = Program.returnsFunction.erase := by
  have hname : Ident.WellFormed ⟨"f", .nowhere⟩ := show IsName ['f'] by decide
  refine Program.read_of_lexes (p := .returnsFunction) (.cons (.retValue (.ident hname)) .nil) ?_
  exact ⟨" f;".toList, rfl, by rintro c ⟨⟩; rfl, ";".toList, rfl, by rintro c ⟨⟩; rfl, [], rfl,
    Symbol.ends_of_extension rfl _, rfl⟩

/-- A conditional without an alternative does not reach into the next script, nor does the comment
behind it. -/
theorem Program.statements_concat_conditional :
    ∃ p₁ p₂ p, Program.read "if (f) f; // else" = .ok p₁ ∧ Program.read "return f;" = .ok p₂ ∧
      Program.read ("if (f) f; // else" ++ "\n" ++ "return f;") = .ok p ∧
      Stmt.eraseAll p.body = [
        .cond .nowhere (.ident ⟨"f", .nowhere⟩) (.expr .nowhere (.ident ⟨"f", .nowhere⟩)) none,
        .ret .nowhere (some (.ident ⟨"f", .nowhere⟩))] := by
  have hname : Ident.WellFormed ⟨"f", .nowhere⟩ := show IsName ['f'] by decide
  have hcond : Stmt.Spelled (.cond .nowhere (.ident ⟨"f", .nowhere⟩)
      (.expr .nowhere (.ident ⟨"f", .nowhere⟩)) none) _ :=
    .cond (.ident hname) (.expr (.ident hname))
  obtain ⟨p₁, hread₁, herase₁⟩ := Program.read_of_lexes (p := ⟨.nowhere, _⟩)
    (s := "if (f) f; // else") (.cons hcond .nil)
    ⟨" (f) f; // else".toList, rfl, by rintro c ⟨⟩; rfl,
      "f) f; // else".toList, rfl, Symbol.ends_of_extension rfl _,
      ") f; // else".toList, rfl, by rintro c ⟨⟩; rfl,
      " f; // else".toList, rfl, Symbol.ends_of_extension rfl _,
      "; // else".toList, rfl, by rintro c ⟨⟩; rfl,
      " // else".toList, rfl, Symbol.ends_of_extension rfl _, rfl⟩
  obtain ⟨p₂, hread₂, herase₂⟩ := Program.exists_read_returnsFunction
  obtain ⟨p, hread, herase⟩ := Program.statements_concat hread₁ hread₂
  refine ⟨p₁, p₂, p, hread₁, hread₂, hread, herase.trans ?_⟩
  rw [show Stmt.eraseAll p₁.body = _ from congrArg Program.body herase₁,
    show Stmt.eraseAll p₂.body = _ from congrArg Program.body herase₂]
  rfl

/-! ## Checking -/

theorem Stmt.sitesAll_append (frames : List Frame) : ∀ as bs : List Stmt,
    Stmt.sitesAll frames (as ++ bs) = Stmt.sitesAll frames as ++ Stmt.sitesAll frames bs
  | [], _ => rfl
  | a :: as, bs => by
    simp only [List.cons_append, Stmt.sitesAll, Stmt.sitesAll_append frames as bs,
      List.append_assoc]

/-- A program passes the check exactly if none of its places offends. -/
theorem Program.check_eq_ok_iff (p : Program) : p.check = .ok () ↔ ∀ s ∈ p.sites, s.Clean := by
  have h := p.verdict_check
  generalize p.check = r at h ⊢
  cases h with
  | ok hclean _ => exact iff_of_true rfl hclean
  | @error before after s id fault hs hbefore hoff =>
    refine iff_of_false (by simp) fun hclean => ?_
    exact hclean s (by simp [hs]) id fault hoff

theorem Program.check_append {p₁ p₂ : Program} (h₁ : p₁.check = .ok ()) (h₂ : p₂.check = .ok ())
    (span : Span) : (Program.mk span (p₁.body ++ p₂.body)).check = .ok () := by
  rw [Program.check_eq_ok_iff] at *
  rw [Program.sites, Stmt.sitesAll_append]
  exact List.forall_mem_append.2 ⟨h₁, h₂⟩

/-! ## Running -/

namespace Stmt

variable {call : Function → List Value → Eval Value} {as bs : List Stmt} {m m' : Machine}

/-- Statements that complete are followed by the next ones. -/
theorem execAll_append_of_normal (h : Stmt.execAll call as m = .ok .normal m') :
    Stmt.execAll call (as ++ bs) m = Stmt.execAll call bs m' := by
  induction as generalizing m with
  | nil =>
    cases h
    rfl
  | cons a as ih =>
    simp only [List.cons_append, Stmt.execAll] at h ⊢
    cases ha : a.exec call m with
    | error e m₁ =>
      rw [Eval.bind_error ha] at h
      cases h
    | ok r m₁ =>
      rw [Eval.bind_ok ha] at h ⊢
      cases r with
      | normal => exact ih h
      | returned v => cases h

/-- Statements that return or fail are the last ones. -/
theorem execAll_append_of_ends (h : ∀ m', Stmt.execAll call as m ≠ .ok .normal m') :
    Stmt.execAll call (as ++ bs) m = Stmt.execAll call as m := by
  induction as generalizing m with
  | nil => exact absurd rfl (h m)
  | cons a as ih =>
    simp only [List.cons_append, Stmt.execAll] at h ⊢
    cases ha : a.exec call m with
    | error e m₁ => rw [Eval.bind_error ha, Eval.bind_error ha]
    | ok r m₁ =>
      simp only [Eval.bind_ok ha] at h ⊢
      cases r with
      | normal => exact ih h
      | returned v => rfl

end Stmt

/-- The machine after statements that completed is where it was before. -/
theorem Host.machine_of_normal {host : Host} {as : List Stmt} {s : Store} {i : ScopeId}
    {config : Config} {printed : Array String} {m : Machine}
    (h : Stmt.execAll host.call as ⟨s, i, config, 0, printed⟩ = .ok .normal m) :
    m = ⟨m.store, i, config, 0, m.printed⟩ := by
  have hrespects := Simulation.respects_execAll (S := Simulation.same)
    (Simulation.respectsCalls_call host ⟨i, config, 0⟩) as (w := s) (i := i) trivial
  obtain ⟨-, -, hcontext, -⟩ :=
    Invariant.kept (m := ⟨s, i, config, 0, printed⟩) hrespects trivial
  rw [Eval.final, h] at hcontext
  obtain ⟨rfl, rfl, hdepth⟩ := Context.mk.inj hcontext
  obtain ⟨store, scope, config, depth, printed⟩ := m
  obtain rfl : depth = 0 := hdepth
  rfl

/-- To execute statements one after the other is to execute the first ones and then, unless these
returned or failed, the others in the store that they left. -/
theorem Program.execute_append (p q : Program) (span : Span) (host : Host) (config : Config)
    (s : Store) (i : ScopeId) (printed : Array String) :
    let first := p.execute host config s i printed
    let joint := (Program.mk span (p.body ++ q.body)).execute host config s i printed
    (first.result = .ok none → joint = q.execute host config first.store i first.printed) ∧
      (first.result ≠ .ok none → joint = first) := by
  simp only [Program.execute, Run.of, Host.execAll_eq, Functor.map, EStateM.map]
  cases hp : Stmt.execAll host.call p.body ⟨s, i, config, 0, printed⟩ with
  | error e m =>
    rw [Stmt.execAll_append_of_ends (by simp [hp]), hp]
    exact ⟨fun h => (by cases h), fun _ => rfl⟩
  | ok r m =>
    cases r with
    | normal =>
      rw [Stmt.execAll_append_of_normal hp, ← Host.machine_of_normal hp]
      exact ⟨fun _ => rfl, fun h => absurd rfl h⟩
    | returned v =>
      rw [Stmt.execAll_append_of_ends (by simp [hp]), hp]
      exact ⟨fun h => (by cases h), fun _ => rfl⟩

/-! ## Interpreters -/

theorem Interpreter.runScript_eq (i : Interpreter) (clock : Int64) {script : String} {p : Program}
    (hread : Program.read script = .ok p) (hcheck : p.check = .ok ()) (printed : Array String) :
    i.runScript clock script printed = p.execute ⟨clock⟩ i.config i.store i.globals printed := by
  simp only [runScript, hread, hcheck, execute]

/-- Splitting a script over two runs cannot be observed. Two scripts that can be read and pass the
check are, with a line break in between, a script that can be read and passes the check. If the
first one ends without a value, the run of that script ends as the runs of the two scripts one
after the other do, and otherwise as the run of the first one, equally but for spans. -/
theorem Interpreter.runScript_concat (i : Interpreter) (clock : Int64) (printed : Array String)
    {s₁ s₂ : String} {p₁ p₂ : Program} (hread₁ : Program.read s₁ = .ok p₁)
    (hcheck₁ : p₁.check = .ok ()) (hread₂ : Program.read s₂ = .ok p₂)
    (hcheck₂ : p₂.check = .ok ()) :
    let first := i.runScript clock s₁ printed
    let second := (i.after first).runScript clock s₂ first.printed
    let joint := i.runScript clock (s₁ ++ "\n" ++ s₂) printed
    (∃ p, Program.read (s₁ ++ "\n" ++ s₂) = .ok p ∧ p.check = .ok ()) ∧
      (first.result = .ok none → second.EqErased joint) ∧
      (first.result ≠ .ok none → first.EqErased joint) := by
  intro first second joint
  obtain ⟨p, hread, herase⟩ := Program.read_concat hread₁ hread₂
  have hcheck : p.check = .ok () := by
    have hverdict := Program.check_erase herase
    rw [Program.check_append hcheck₁ hcheck₂] at hverdict
    exact unplaced_eq_ok.1 hverdict
  have hfirst : first = p₁.execute ⟨clock⟩ i.config i.store i.globals printed :=
    i.runScript_eq clock hread₁ hcheck₁ printed
  have hsecond : second = p₂.execute ⟨clock⟩ i.config first.store i.globals first.printed :=
    (i.after first).runScript_eq clock hread₂ hcheck₂ first.printed
  have hjoint : (Program.execute ⟨.nowhere, p₁.body ++ p₂.body⟩ ⟨clock⟩ i.config i.store i.globals
      printed).EqErased joint := by
    rw [show joint = _ from i.runScript_eq clock hread hcheck printed]
    exact Program.execute_erase herase ⟨clock⟩ i.config (.refl i.store) i.globals printed
  obtain ⟨hgoes, hends⟩ := Program.execute_append p₁ p₂ .nowhere ⟨clock⟩ i.config i.store i.globals
    printed
  rw [← hfirst] at hgoes hends
  refine ⟨⟨p, hread, hcheck⟩, fun h => ?_, fun h => ?_⟩
  · rw [hsecond, ← hgoes h]
    exact hjoint
  · rw [← hends h]
    exact hjoint

/-- `fn f() {} // f`, up to spans. -/
def Program.declaresFunction : Program :=
  ⟨.nowhere, [.function (.mk .nowhere (some ⟨"f", .nowhere⟩) [] .nowhere [])]⟩

theorem Program.exists_read_declaresFunction :
    ∃ p, Program.read "fn f() \x7b\x7d // f" = .ok p ∧
      p.erase = Program.declaresFunction.erase := by
  have hname : Ident.WellFormed ⟨"f", .nowhere⟩ := show IsName ['f'] by decide
  have hd : FunctionDef.Spelled (.mk .nowhere (some ⟨"f", .nowhere⟩) [] .nowhere []) _ :=
    .mk (by simp) .nil
  refine Program.read_of_lexes (p := .declaresFunction) (.cons (.function rfl hname hd) .nil) ?_
  exact ⟨" f() \x7b\x7d // f".toList, rfl, by rintro c ⟨⟩; rfl,
    "() \x7b\x7d // f".toList, rfl, by rintro c ⟨⟩; rfl,
    ") \x7b\x7d // f".toList, rfl, Symbol.ends_of_extension rfl _,
    " \x7b\x7d // f".toList, rfl, Symbol.ends_of_extension rfl _,
    "\x7d // f".toList, rfl, Symbol.ends_of_extension rfl _,
    " // f".toList, rfl, Symbol.ends_of_extension rfl _, rfl⟩

/-- A function that is declared before a comment, and returned in the next script. -/
theorem Interpreter.runScript_concat_returnsFunction :
    let i := Interpreter.new .standard
    let s₁ := "fn f() \x7b\x7d // f"
    let s₂ := "return f;"
    let first := i.runScript 0 s₁ #[]
    let second := (i.after first).runScript 0 s₂ first.printed
    let joint := i.runScript 0 (s₁ ++ "\n" ++ s₂) #[]
    (∃ p, Program.read s₁ = .ok p ∧ p.check = .ok ()) ∧
      (∃ p, Program.read s₂ = .ok p ∧ p.check = .ok ()) ∧
      (∃ p, Program.read (s₁ ++ "\n" ++ s₂) = .ok p ∧ p.check = .ok ()) ∧
      first.result = .ok none ∧ second.EqErased joint := by
  intro i s₁ s₂ first second joint
  obtain ⟨p₁, hread₁, herase₁⟩ := Program.exists_read_declaresFunction
  obtain ⟨p₂, hread₂, herase₂⟩ := Program.exists_read_returnsFunction
  have hcheck₁ : p₁.check = .ok () := unplaced_eq_ok.1 (Program.check_erase herase₁)
  have hcheck₂ : p₂.check = .ok () := unplaced_eq_ok.1 (Program.check_erase herase₂)
  have hresult : first.result = .ok none := by
    have hrun := Program.execute_erase herase₁ ⟨0⟩ i.config (.refl i.store) i.globals #[]
    have hnone : (Program.declaresFunction.execute ⟨0⟩ .standard (Interpreter.new .standard).store 1
        #[]).result = .ok none := by with_unfolding_all rfl
    rw [show first = _ from i.runScript_eq 0 hread₁ hcheck₁ #[]]
    exact hrun.result_eq_none hnone
  obtain ⟨hjoint, hgoes, -⟩ :=
    Interpreter.runScript_concat i 0 #[] hread₁ hcheck₁ hread₂ hcheck₂
  exact ⟨⟨p₁, hread₁, hcheck₁⟩, ⟨p₂, hread₂, hcheck₂⟩, hjoint, hresult, hgoes hresult⟩

end Scoped
