import Scoped.Eval.Basic
import Scoped.Program.Check
import Scoped.Program.Read

/-!
# Interpreters

An interpreter keeps a store between runs. Its prelude is a root scope that binds the
native functions, and programs run in the globals, a scope inside the prelude : a program
can shadow a native, but not replace it.
-/

namespace Scoped

/-- The end of a run. -/
structure Run where
  /-- The value that the program returned, if it did, or the error that it failed with. -/
  result : Except Error (Option Value)
  store : Store
  /-- The lines on the output : those from before the run, and those that it printed. -/
  printed : Array String

/-- A run of a computation from a machine. -/
def Run.of (x : Eval (Option Value)) (m : Machine) : Run :=
  match x m with
  | .ok v m => ⟨.ok v, m.store, m.printed⟩
  | .error e m => ⟨.error e, m.store, m.printed⟩

/-- Executes a program in a scope of a store. -/
def Program.execute (p : Program) (host : Host) (config : Config) (store : Store)
    (scope : ScopeId) (printed : Array String) : Run :=
  Run.of (Completion.value? <$> host.execAll p.body) ⟨store, scope, config, 0, printed⟩

/-- An interpreter. -/
structure Interpreter where
  config : Config
  store : Store
  prelude : ScopeId
  globals : ScopeId

namespace Interpreter

/-- An interpreter with nothing but the native functions. -/
def new (config : Config) : Interpreter :=
  let prelude := Store.empty.nextScope
  let store := (Store.empty.openRoot config.redeclaration).register prelude
  let globals := store.nextScope
  ⟨config, store.openInside prelude .block, prelude, globals⟩

/-- A machine in the globals. -/
def machine (i : Interpreter) (printed : Array String) : Machine :=
  ⟨i.store, i.globals, i.config, 0, printed⟩

/-- Executes a program in the globals. -/
def execute (i : Interpreter) (clock : Int64) (p : Program) (printed : Array String) : Run :=
  p.execute ⟨clock⟩ i.config i.store i.globals printed

/-- Reads a script, and executes it without checking it. -/
def executeScript (i : Interpreter) (clock : Int64) (script : String)
    (printed : Array String) : Run :=
  match Program.read script with
  | .ok p => i.execute clock p printed
  | .error e => ⟨.error e, i.store, printed⟩

/-- Reads a script, checks it and executes it. -/
def runScript (i : Interpreter) (clock : Int64) (script : String) (printed : Array String) : Run :=
  match Program.read script with
  | .ok p =>
    match p.check with
    | .ok () => i.execute clock p printed
    | .error e => ⟨.error e, i.store, printed⟩
  | .error e => ⟨.error e, i.store, printed⟩

/-- Calls the function that a name refers to from a scope. There is no result if it refers
to another value. -/
def callNamed (i : Interpreter) (clock : Int64) (scope : ScopeId) (x : String) (args : List Value)
    (printed : Array String) : Run :=
  match i.store.get scope x with
  | .ok (.function f) =>
    Run.of (some <$> Host.call ⟨clock⟩ f args) ⟨i.store, scope, i.config, 0, printed⟩
  | .ok _ => ⟨.ok none, i.store, printed⟩
  | .error c => ⟨.error ⟨c, none⟩, i.store, printed⟩

end Interpreter

/-- The description of a scope in diagnostics. The number of the scope is left to the host. -/
def Store.inspect (s : Store) (i : ScopeId) (number : String) : String :=
  let function :=
    match s.function? i with
    | some f => "Some(" ++ Text.quoted f ++ ")"
    | none => "None"
  "Environment \x7b id: " ++ number ++ ", depth: " ++ toString (s.depth i) ++ ", function: " ++
    function ++ ", bindings: [" ++ ", ".intercalate ((s.names i).map Text.quoted) ++ "] \x7d"

end Scoped
