import Entail.Config
import Entail.Search.Solve
import Entail.Theory.Registry
import Entail.Variables

/-!
# Contexts

A context is a stack of assertions with everything a search over them needs: decision variables for
terms, clauses in a search core, the theories, and the definitions of constants that were
eliminated. Each table that grows with the assertions has a log or a size mark, so that closing a
scope takes it back.

Operations of a context also extend the term store; they run in `Work`, and keep what was done
before a refusal.
-/

namespace Entail

namespace Context

/-- Sizes of the logs when a scope was opened. -/
structure Scope where
  assertions : Nat
  substLog : Nat
  cacheLog : Nat
  created : Nat

/-- An entry of one of the two caches of encoded terms. -/
inductive Cached where
  | literal (t : Term)
  | word (t : Term)
deriving DecidableEq

end Context

/-- Assertions, their clauses and the state of the search over them. -/
structure Context where
  config : Config
  options : Options
  status : Status := .idle
  /-- Decision variables; those announced to the one listener are not known to the core yet. -/
  vars : Variables
  core : Core := {}
  registry : Theory.Registry
  assertions : Array Term := #[]
  /-- Open scopes, innermost first. -/
  scopes : List Context.Scope := []
  /-- Eliminated constants and their definitions. -/
  subst : Subst := ∅
  /-- Eliminated constants, in the order of their elimination. -/
  substLog : Array Term := #[]
  /-- Literals of positive boolean terms that were encoded. -/
  lits : Std.HashMap Term Literal := ∅
  /-- Bits of bitvector terms that were encoded, the least significant first. -/
  bits : Std.HashMap Term (List Literal) := ∅
  /-- Entries of the two caches, in the order they were made. -/
  cacheLog : Array Context.Cached := #[]
  /-- Constants made for the outputs of gates. -/
  aux : Std.HashSet Term := ∅
  /-- Live variables that the core knows, in the order of their creation. -/
  created : Array Nat := #[]
  /-- The literal that is true in every assignment. -/
  trueLit : Literal := .pos 0
  /-- Whether a stop was requested. -/
  interrupted : Bool := false

namespace Context

/-- Number of open scopes. -/
def depth (c : Context) : Nat := c.scopes.length

/-- Whether a simplification is on. -/
def isOn (c : Context) (x : Simplification) : Bool := c.options.isOn x

/-- Adds a clause to the innermost scope. -/
def addClause (lits : List Literal) (c : Context) : Context :=
  { c with core := c.core.addClause lits c.depth }

/-- The positive literal of a term's variable, given out if it is new. -/
def atom (t : Term) (c : Context) : Literal × Context :=
  let (v, vars) := c.vars.get t
  (.pos v, { c with vars })

/-- Makes the core know of the variables that were given out since the last time. -/
def syncVars (c : Context) : Context :=
  let (news, vars) := c.vars.collect
  { c with
    vars
    core := news.foldl (fun core a => core.ensureVar a.var) c.core
    created := c.created ++ news.map (·.var) }

/-- A context without variables. -/
def blank (config : Config) : Context where
  config
  options := config.options
  vars := Variables.empty.listen.2
  registry := ({} : Theory.Registry).register (.quant {})

/-- An empty context. Its first variable stands for truth, and a clause of the outermost
scope says so. -/
def new (config : Config) : Context :=
  let (l, c) := (blank config).atom .top
  { c.syncVars with trueLit := l }.addClause [l]

instance : Inhabited Context := ⟨new default⟩

/-- Forgets the assignment of a finished search; what holds at level 0 is assigned again. -/
def clearSearch (c : Context) : Context :=
  { c with core := c.core.resetTrail.assignUnits.2, registry := c.registry.backtrack 0 }

/-- An empty context with the configuration, the options and the stop request of this one. -/
def reset (c : Context) : Context :=
  { new c.config with options := c.options, interrupted := c.interrupted }

/-- Requests a running check to stop. -/
def stop (c : Context) : Context := { c with interrupted := true }

/-- Switches a simplification, given by name, on or off. -/
def setOption (c : Context) (name : String) (on : Bool) : Except Failure Context := do
  let x ← Simplification.ofName name
  return { c with options := c.options.set x on }

/-- Terms that have to stay in the store while the context is in use, in no order. -/
def roots (c : Context) : List Term :=
  c.assertions.toList ++ c.vars.toList.map (·.2) ++ c.subst.toList.flatMap (fun (x, v) => [x, v]) ++
    c.lits.keys ++
    c.bits.keys ++ c.aux.toList ++ c.registry.roots

/-- Summary of a context. -/
def summary (c : Context) : String :=
  s!"Context \x7b mode: {c.config.mode.title}, status: {c.status.title}, scopes: {c.depth}, " ++
    s!"assertions: {c.assertions.size}, vars: {c.vars.summary} \x7d"

end Context

/-! ## Operations -/

/-- A context together with the store of its terms. -/
structure Workspace where
  store : Store
  ctx : Context

/-- Operations on a context and its store that may be refused. What was done before a
refusal is kept. -/
abbrev Work := EStateM Failure Workspace

namespace Work

/-- Runs an operation on the store. -/
def onStore {α : Type} (op : Store.Op α) : Work α := fun ⟨store, ctx⟩ =>
  match op store with
  | .ok a store => .ok a ⟨store, ctx⟩
  | .error e store => .error (.term e) ⟨store, ctx⟩

/-- Changes the context and answers something. -/
def update {α : Type} (f : Context → α × Context) : Work α := fun ⟨store, ctx⟩ =>
  match f ctx with
  | (a, ctx) => .ok a ⟨store, ctx⟩

/-- Changes the context. -/
def change (f : Context → Context) : Work Unit := fun ⟨store, ctx⟩ => .ok () ⟨store, f ctx⟩

/-- Replaces the context by what an operation makes of it, which may be refused. -/
def replace (f : Context → Except Failure Context) : Work Unit := fun ⟨store, ctx⟩ =>
  match f ctx with
  | .ok ctx => .ok () ⟨store, ctx⟩
  | .error e => .error e ⟨store, ctx⟩

/-- Reads the store and the context. -/
def look {α : Type} (f : Store → Context → α) : Work α := fun w => .ok (f w.store w.ctx) w

/-- Runs a read-only check. -/
def check {α : Type} (f : Store → Context → Except Failure α) : Work α := fun w =>
  match f w.store w.ctx with
  | .ok a => .ok a w
  | .error e => .error e w

/-- Runs an operation on the e-graph. -/
def onEgraph {α : Type} (op : Store → StateM Egraph α) : Work α := fun ⟨store, ctx⟩ =>
  match op store ctx.registry.egraph with
  | (a, egraph) => .ok a ⟨store, { ctx with registry := { ctx.registry with egraph } }⟩

/-- Shape of a term. -/
def shape (t : Term) : Work Term.Shape := look fun s _ => s.shape t

/-- Registers a quantified formula with its explicit patterns, if any. -/
def addConstraint (formula : Term) (patterns : List Term) : Work Unit := do
  match ← look fun _ c => c.registry.quant? with
  | none => throw .operationNotSupported
  | some q =>
    let q ← check fun s _ => q.addConstraint s formula patterns
    change fun c => { c with registry := c.registry.setQuant q }

end Work
end Entail
