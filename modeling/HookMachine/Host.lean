import HookMachine.Execution.Call

/-!
A host: several runtimes over one store of prototypes. Runtimes share nothing else, and each
stamps its handles with a heap of its own.
-/

namespace HookMachine

/-- Names a runtime of a host. -/
structure RuntimeRef where
  index : Nat
deriving DecidableEq, Inhabited, Repr

/-- All runtimes made so far and the prototypes that they share. -/
structure Host where
  prototypes : PrototypeStore := {}
  /-- The runtimes; the prototypes are kept by the host while none of them runs. -/
  runtimes : Array Machine := #[]

namespace Machine

/-- A runtime before its script functions are installed. -/
def bare (heap : Nat) (config : Config) : Machine :=
  let (globals, tables) := (Heap.empty heap).tables.insert {}
  { heap := { Heap.empty heap with tables }
    globals := ⟨globals⟩
    config
    identities := .empty config.defaultLevel }

/-- A runtime whose root globals hold the script functions. -/
def create (heap : Nat) (config : Config) : Machine :=
  match Script.register ScriptFunction.all (bare heap config) with
  | .ok () m => m
  | .error _ m => m

/-- The runtime after its registries are dropped: all they kept alive is given up, and the
functions that belong to it fail from now on. Redirects stay as they are.
-/
def drop (m : Machine) : Machine :=
  let guards := m.environments.guards ++ m.hooks.guards ++ ConnectionRegistry.guards m.connections
  { m.letGoAll guards with
    alive := false
    environments := {}
    hooks := {}
    connections := #[] }

end Machine

namespace Host

variable {ε α : Type}

/-- Adds a runtime; heaps are numbered from 1. -/
def addRuntime (host : Host) (config : Config) : RuntimeRef × Host :=
  (⟨host.runtimes.size⟩,
    { host with runtimes := host.runtimes.push (.create (host.runtimes.size + 1) config) })

/-- Adds a prototype. -/
def addPrototype (host : Host) (p : Prototype) : PrototypeRef × Host :=
  let (ref, prototypes) := host.prototypes.insert p
  (ref, { host with prototypes })

/-- Runs an operation on a runtime for an execution context; nothing if there is no such
runtime.
-/
def run (host : Host) (ref : RuntimeRef) (context : ContextRef) (x : Run ε α)
    : Option (Except (Halt ε) α) × Host :=
  match host.runtimes[ref.index]? with
  | none => (none, host)
  | some m =>
      let (result, m) :=
        match x { m with prototypes := host.prototypes, context } with
        | .ok a m => (Except.ok a, m)
        | .error halt m => (.error halt, m)
      (some result,
        { prototypes := m.prototypes
          runtimes := host.runtimes.setIfInBounds ref.index { m with prototypes := {} } })

end Host
end HookMachine
