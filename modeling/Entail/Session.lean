import Entail.Engine

/-!
# Sessions

A session is the flat way to use the library: at most one engine, which has to be started, and
numbered handles for everything else. No operation fails; one that is refused answers a fixed value
instead, its *sentinel*, and the failure is on the engine's record. The same value is the answer
when no engine is running, and when there is no handle.
-/

namespace Entail

/-- A growable list of terms that the user owns. -/
structure TermVector where
  /-- Largest size so far. -/
  capacity : Nat := 0
  items : List Term := []
deriving Inhabited

/-- Fills a vector with other terms. -/
def TermVector.fill (v : TermVector) (ts : List Term) : TermVector := ⟨max v.capacity ts.length, ts⟩

/-- Empties a vector without giving up its room. -/
def TermVector.clear (v : TermVector) : TermVector := { v with items := [] }

/-- Numbered things; a number is never given out twice. -/
structure Numbered (α : Type) where
  items : Array (Option α) := #[]
deriving Inhabited

namespace Numbered

variable {α : Type}

/-- The live thing with a number. -/
def get? (xs : Numbered α) (i : Nat) : Option α := (xs.items[i]?).join

/-- Adds something and answers its number. -/
def add (xs : Numbered α) (a : α) : Nat × Numbered α := (xs.items.size, ⟨xs.items.push (some a)⟩)

/-- Replaces the thing with a number. -/
def set (xs : Numbered α) (i : Nat) (a : α) : Numbered α := ⟨xs.items.setIfInBounds i (some a)⟩

/-- Drops the thing with a number. -/
def drop (xs : Numbered α) (i : Nat) : Numbered α := ⟨xs.items.setIfInBounds i none⟩

end Numbered

/-- An engine that may be running, and what the user holds. -/
structure Session where
  engine : Option Engine := none
  configs : Numbered Config := {}
  params : Numbered Params := {}
  contexts : Numbered Handle := {}
  models : Numbered Handle := {}
  vectors : Numbered TermVector := {}
deriving Inhabited

namespace Session

/-- Operations of a session. -/
abbrev Op := StateM Session

/-- A number as sessions show it: a signed 32-bit word. -/
def word (n : Nat) : Int := Bits.signed 32 n

/-- Text as sessions hand it out: without NUL characters. -/
def text (s : String) : String := String.ofList (s.toList.filter (· ≠ '\x00'))

/-- Runs an engine operation; `sentinel` is the answer when it is refused or no engine is
running. -/
def run {α : Type} (sentinel : α) (op : Engine.Op α) : Op α := modifyGet fun s =>
  match s.engine with
  | none => (sentinel, s)
  | some e =>
    let s := { s with engine := none }
    match Engine.record op e with
    | .ok a e => (a, { s with engine := some e })
    | .error _ e => (sentinel, { s with engine := some e })

/-- Runs an operation that answers something only when it succeeds. -/
def run? {α : Type} (op : Engine.Op α) : Op (Option α) := run none (some <$> op)

/-- Answer of an operation that says nothing but whether it succeeded. -/
def code {α : Type} (a : Option α) : Int := if a.isSome then 0 else -1

/-- Runs an operation that says nothing but whether it succeeds. -/
def succeed (op : Engine.Op Unit) : Op Int := do return code (← run? op)

/-! ## The engine -/

/-- Starts an engine unless one is running. -/
def init : Op Unit := modify fun s => { s with engine := some (s.engine.getD {}) }

/-- Stops the engine. -/
def exit : Op Unit := modify fun s => { s with engine := none }

/-- Drops everything that the engine owns. -/
def reset : Op Unit := run () Engine.reset

/-- Record of the last failure; empty when no engine is running. -/
def report : Op Report := do return ((← get).engine.map (·.error)).getD .empty

/-- The numbers on record: code, term, type, second term, second type and number at fault. What is
missing is minus one, except the last. -/
def reportNumbers : Op (List Int) := do
  let r ← report
  let shown (n : Option Nat) : Int := (n.map word).getD (-1)
  return [(r.code.number : Int), shown (r.term1.map (·.raw)), shown (r.type1.map (·.raw)),
    shown (r.term2.map (·.raw)),
    shown (r.type2.map (·.raw)), r.badval]

/-- Message of the last failure; empty when no engine is running. -/
def message : Op String := do return text (((← get).engine.map (·.message)).getD "")

/-- Forgets the last failure. -/
def clearError : Op Unit := run () Engine.clearError

/-! ## Configurations and parameters -/

/-- A new default configuration. -/
def newConfig : Op Nat := modifyGet fun s => let (i, configs) := s.configs.add {};
      (i, { s with configs })

/-- New default parameters. -/
def newParams : Op Nat := modifyGet fun s => let (i, params) := s.params.add {};
      (i, { s with params })

/-- Looks at an outcome on record. -/
def attempt {α : Type} (x : Except Failure α) : Op (Option α) := run? fun e =>
  match x with
  | .ok a => .ok a e
  | .error f => .error f e

/-- Sets an entry of a configuration. -/
def setConfig (i : Nat) (config : Config) (name value : String) : Op Int := do
  let new ← attempt (config.set name value)
  modify fun s => { s with configs := s.configs.set i (new.getD config) }
  return code new

/-- Sets a parameter of a record. -/
def setParam (i : Nat) (params : Params) (name value : String) : Op Int := do
  let new ← attempt (params.set name value)
  modify fun s => { s with params := s.params.set i (new.getD params) }
  return code new

/-- Gives up a configuration. -/
def freeConfig (i : Nat) : Op Unit := modify fun s => { s with configs := s.configs.drop i }

/-- Gives up a record of parameters. -/
def freeParams (i : Nat) : Op Unit := modify fun s => { s with params := s.params.drop i }

/-! ## Contexts -/

/-- A new context, if an engine is running; the default configuration is used when there is none. -/
def newContext (config : Option Config) : Op (Option Nat) := do
  match ← run? (Engine.newContext (config.getD {})) with
  | none => return none
  | some h => modifyGet fun s =>
    let (i, contexts) := s.contexts.add h; (some i, { s with contexts })

/-- Gives up a context. -/
def freeContext (i : Nat) (h : Handle) : Op Unit := do
  run () (Engine.freeContext h)
  modify fun s => { s with contexts := s.contexts.drop i }

/-- Runs an operation on a context that says nothing but whether it succeeds. -/
def onContext (h : Option Handle) (op : Handle → Engine.Op Unit) : Op Int :=
  match h with
  | none => return -1
  | some h => succeed (op h)

/-- Number of a status that an operation on a context answers. -/
def statusOf (h : Option Handle) (op : Handle → Engine.Op Status) : Op Int := do
  match h with
  | none => return -1
  | some h => return ((← run? (op h)).map fun s => (s.number : Int)).getD (-1)

/-- Status of a context. -/
def status (h : Option Handle) : Op Int := statusOf h Engine.status

/-- Empties a context. -/
def resetContext (h : Option Handle) : Op Unit := do let _ ← onContext h Engine.resetContext

/-- Checks a context, by default with the default parameters. -/
def check (fuel : Nat) (h : Option Handle) (params : Option Params) (stop : StopRequest) : Op Int :=
  statusOf h fun h => Engine.check h (params.getD {}) stop fuel

/-! ## Models -/

/-- A new model of a context, if it has one. -/
def newModel (ctx : Option Handle) (keepSubst : Bool) : Op (Option Nat) := do
  match ctx with
  | none => return none
  | some h =>
    match ← run? (Engine.newModel h keepSubst) with
    | none => return none
    | some h => modifyGet fun s => let (i, models) := s.models.add h; (some i, { s with models })

/-- Gives up a model. -/
def freeModel (i : Nat) (h : Handle) : Op Unit := do
  run () (Engine.freeModel h)
  modify fun s => { s with models := s.models.drop i }

/-- Asks something of a model. -/
def ofModel {α : Type} (h : Option Handle) (f : Model → Store → Except Failure α) : Op (Option α) :=
  match h with
  | none => return none
  | some h => run? (Engine.withModel h f)

/-- Whether formulas are true in a model: one, zero, or minus one. -/
def allTrue (h : Option Handle) (ts : List Term) : Op Int := do
  return ((← ofModel h fun m s => m.allTrue s ts).map fun b => (b.toNat : Int)).getD (-1)

/-- Text of a model. -/
def modelText (h : Option Handle) (width : Nat) : Op (Option String) := do
  return (← ofModel h fun m s => .ok (m.text s width)).map text

/-! ## Vectors -/

/-- A new empty vector. -/
def newVector : Op Nat := modifyGet fun s => let (i, vectors) := s.vectors.add {};
      (i, { s with vectors })

/-- Replaces a vector. -/
def setVector (i : Nat) (v : TermVector) : Op TermVector :=
  modifyGet fun s => (v, { s with vectors := s.vectors.set i v })

/-- Fills a vector with the children of a term. -/
def children (t : Term) (i : Nat) (v : TermVector) : Op (Int × TermVector) := do
  let cs ← run? (Engine.query (·.children t))
  let v ← setVector i ((cs.map v.fill).getD v)
  return (code cs, v)

end Session
end Entail
