import HookMachine.Machine

/-!
Finding objects of a heap by criteria.
-/

namespace HookMachine.Inspection

/-- Whether a criterion that may be unset is met. -/
def met {α : Type} (criterion : Option α) (test : α → Bool) : Bool :=
  criterion.all test

/-- Whether a closure meets the criteria for functions. -/
def closureMatches (m : Machine) (criteria : Criteria) (c : Closure) : Bool :=
  let p := m.prototypes.get c.prototype
  met criteria.name (fun name => p.name == some name)
    && met criteria.upvalues (· == c.upvalues.size)
    && met criteria.constants (· == p.constants.size)

/-- Whether a native meets the criteria for functions. -/
def nativeMatches (criteria : Criteria) (n : Native) : Bool :=
  !criteria.bytecodeOnly
    && met criteria.name (· == n.name)
    && met criteria.upvalues (· == 0)
    && criteria.constants.isNone

/-- Whether a table meets the criteria for tables. -/
def tableMatches (criteria : Criteria) (t : Table) : Bool :=
  met criteria.metatable (fun mt => t.metatable == some mt)
    && criteria.keys.all (fun key => (t.get? key).isSome)
    && criteria.values.all (fun wanted => t.entries.any fun field => field.2 == wanted)

/-- The objects of a kind that meet all criteria, by kind of object and slot. -/
def filter (m : Machine) (kind : ObjectKind) (criteria : Criteria) : List Value :=
  match kind with
  | .callable =>
      let closures := m.heap.closures.toList.filter fun entry => closureMatches m criteria entry.2
      let natives := m.heap.natives.toList.filter fun entry => nativeMatches criteria entry.2
      closures.map (fun entry => .closure ⟨entry.1⟩) ++ natives.map (fun entry => .native ⟨entry.1⟩)
  | .container =>
      let tables := m.heap.tables.toList.filter fun entry => tableMatches criteria entry.2
      tables.map fun entry => .table ⟨entry.1⟩

end HookMachine.Inspection
