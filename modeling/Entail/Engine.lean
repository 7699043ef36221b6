import Entail.Context.Check
import Entail.Context.Model
import Entail.Model.Print
import Entail.Pool
import Entail.Store.Collect

/-!
# The engine

An engine owns a term store and the contexts and models over it. It keeps a record of the last
failure; operations that succeed leave the record alone.
-/

namespace Entail

/-- A term store with the contexts and models over it. -/
structure Engine where
  store : Store := .empty
  contexts : Pool Context := {}
  models : Pool Model := {}
  /-- Record of the last failure. -/
  error : Report := .empty
  /-- Message of the last failure. -/
  message : String := ""
deriving Inhabited

namespace Engine

/-- Version of this library: major, minor and patch number. -/
def version : List Nat := [0, 1, 0]

/-- Operations on an engine that may be refused. -/
abbrev Op := EStateM Failure Engine

/-- Runs an operation and puts its failure on record. -/
def record {α : Type} (op : Op α) : Op α := fun e =>
  match op e with
  | .ok a e => .ok a e
  | .error f e => .error f { e with error := f.report, message := f.message }

/-- Forgets the last failure. -/
def clearError : Op Unit := modify fun e => { e with error := .empty, message := "" }

/-- Drops everything. -/
def reset : Op Unit := set ({} : Engine)

/-- Runs an operation on the term store. -/
def build {α : Type} (op : Store.Op α) : Op α :=
  record fun ⟨store, contexts, models, error, message⟩ =>
  match op store with
  | .ok a store => .ok a ⟨store, contexts, models, error, message⟩
  | .error f store => .error (.term f) ⟨store, contexts, models, error, message⟩

/-- Runs a read-only check of the term store. -/
def query {α : Type} (f : Store → Except TermError α) : Op α := build (Store.read f)

/-- Reads a part of the engine. -/
def look {α : Type} (f : Engine → α) : Op α := fun e => .ok (f e) e

/-! ## Contexts -/

/-- Makes a context. -/
def newContext (config : Config) : Op Handle := modifyGet fun e =>
  let (h, contexts) := e.contexts.insert (.new config)
  (h, { e with contexts })

/-- Gives up a context. -/
def freeContext (h : Handle) : Op Unit := record fun e =>
  match e.contexts.erase? h with
  | some contexts => .ok () { e with contexts }
  | none => .error .invalidContext e

/-- Runs an operation on a context. -/
def withContext {α : Type} (h : Handle) (op : Work α) : Op α := record fun e =>
  match e.contexts.get? h with
  | none => .error .invalidContext e
  | some ctx =>
    match op ⟨e.store, ctx⟩ with
    | .ok a ⟨store, ctx⟩ => .ok a { e with store, contexts := e.contexts.set h ctx }
    | .error f ⟨store, ctx⟩ => .error f { e with store, contexts := e.contexts.set h ctx }

/-- Runs an operation on a context that needs no store. -/
def changeContext (h : Handle) (f : Context → Except Failure Context) : Op Unit :=
  withContext h (Work.replace f)

/-- Status of a context. -/
def status (h : Handle) : Op Status := withContext h (Work.look fun _ c => c.status)

/-- Empties a context. -/
def resetContext (h : Handle) : Op Unit := changeContext h fun c => .ok c.reset

/-- Requests a check to stop. -/
def stop (h : Handle) : Op Unit := changeContext h fun c => .ok c.stop

/-- Switches a simplification, given by name, on or off. -/
def setOption (h : Handle) (name : String) (on : Bool) : Op Unit :=
  changeContext h (·.setOption name on)

/-- Opens a scope. -/
def push (h : Handle) : Op Unit := changeContext h (·.push)

/-- Closes a scope. -/
def pop (h : Handle) : Op Unit := changeContext h (·.pop)

/-- Excludes the present assignment. -/
def block (h : Handle) : Op Unit := changeContext h (·.block)

/-- Asserts formulas. -/
def assertAll (h : Handle) (ts : List Term) : Op Unit := withContext h (Work.assertAll ts)

/-- Asserts a universally quantified formula with patterns. -/
def assertQuantifier (h : Handle) (formula : Term) (patterns : List Term) : Op Unit :=
  withContext h (Work.assertQuantifier formula patterns)

/-- Checks a context, in at most `fuel` steps. -/
def check (h : Handle) (p : Params) (stop : StopRequest) (fuel : Nat) : Op Status :=
  withContext h (Work.checkSat p stop fuel)

/-! ## Models -/

/-- Makes a model of a checked context. -/
def newModel (h : Handle) (keepSubst : Bool) : Op Handle := do
  let m ← withContext h (Work.check fun s c => c.model s keepSubst)
  modifyGet fun e =>
    let (h, models) := e.models.insert m
    (h, { e with models })

/-- Gives up a model. -/
def freeModel (h : Handle) : Op Unit := record fun e =>
  match e.models.erase? h with
  | some models => .ok () { e with models }
  | none => .error .invalidModel e

/-- Asks something of a model. -/
def withModel {α : Type} (h : Handle) (f : Model → Store → Except Failure α) : Op α :=
  record fun e =>
  match e.models.get? h with
  | none => .error .invalidModel e
  | some m =>
    match f m e.store with
    | .ok a => .ok a e
    | .error f => .error f e

/-! ## Garbage collection -/

/-- Deletes terms and types that are reachable neither from the given roots nor from contexts,
models, reference counts and, on demand, names. Answers the numbers of deleted terms and types. -/
def collect (roots : List Term) (tyRoots : List Ty) (keepNamed : Bool) : Op (Nat × Nat) :=
  modifyGet fun e =>
  let roots := roots ++ e.contexts.toList.flatMap (·.roots) ++ e.models.toList.flatMap (·.roots)
  let (counts, store) := e.store.collect roots tyRoots keepNamed
  (counts, { e with store })

end Engine
end Entail
