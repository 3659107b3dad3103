import HookMachine.Proofs.Soundness.Validity

/-!
Natives that keep the rules. What a function of the host asks for is permitted where it asks,
given only that what it was handed before is still valid; it gives back no retained slots but
those that it took itself.
-/

namespace HookMachine

/-- The values that name an owner. -/
@[simp]
def EnvironmentOwner.values : EnvironmentOwner → List Value
  | runtime => []
  | script id | module id => [id]

namespace Request

/-- The values that answering a request relies on. -/
def values : Request → List Value
  | instantiate _ table => (table.map Value.table).toList
  | load owner _ | environment owner => owner.values
  | contents table | isReadOnly table | setReadOnly table _ => [.table table]
  | rawGet table _ => [.table table]
  | rawSet table key value => [.table table, key, value]
  | metatable value | functionName value | clone value | checkOwner value | retain value
  | hold value | constant value _ | constants value | info value | nested value _ _
  | digest value | wrap value => [value]
  | setMetatable table mt => .table table :: (mt.map Value.table).toList
  | closureEnvironment closure | upvalueCount closure => [.closure closure]
  | redirect closure target => .closure closure :: target.toList
  | call f arguments => f :: arguments
  | index object key => [object, key]
  | assign object key value => [object, key, value]
  | hook target replacement => [target, replacement]
  | hookMetamethod object _ replacement => [object, replacement]
  | unhookMetamethod object _ => [object]
  | setConstant f _ value => [f, value]
  | connect _ callback => [callback]
  | fire _ arguments | fireSignal _ arguments => arguments
  | _ => []

/-- The prototypes that closures are made over to answer a request. -/
def prototypes : Request → List PrototypeRef
  | instantiate prototype _ | load _ prototype => [prototype]
  | _ => []

/-- The slot that a request gives back. -/
def frees? : Request → Option Handle
  | release slot => some slot
  | letGo guard => some guard.slot
  | _ => none

/-- The values that an answer hands out. -/
def handedOut : (request : Request) → request.Answer → List Value
  | newTable, ref => [.table ref]
  | instantiate .., ref | load .., ref => [.closure ref]
  | contents _, t => t.references
  | rawGet .., value | index .., value | readShared _, value | hookMetamethod .., value
  | wrap _, value => [value]
  | metatable _, ref => (ref.map Value.table).toList
  | closureEnvironment _, ref | environment _, ref => [.table ref]
  | clone _, value | resolve _, value | constant .., value => value.toList
  | objects _, values | call .., values | retained, values | filter .., values => values
  | hold _, guard => [guard.value]
  | hook .., copy => (copy.map Value.closure).toList
  | constants _, values => values.getD []
  | nested .., some (.closure ref) => [.closure ref]
  | _, _ => []

/-- The slots that belong to the one who asked, after the answer. -/
def owned : (request : Request) → request.Answer → List Guard → List Guard
  | retain value, slot, mine => { slot, value } :: mine
  | hold _, guard, mine => guard :: mine
  | release slot, _, mine => mine.filter fun guard => guard.slot ≠ slot
  | letGo gone, _, mine => mine.filter fun guard => guard.slot ≠ gone.slot
  | _, _, mine => mine

end Request

namespace Rules

variable (rules : Rules)

/-- A request may be made in a machine by one to whom the slots `mine` belong. -/
structure Permits (m : Machine) (mine : List Guard) (request : Request) : Prop where
  values : ∀ value ∈ request.values, rules.Valid m value
  prototypes : ∀ ref ∈ request.prototypes, rules.ValidPrototype m ref
  redirect : ∀ ref target, request = .redirect ref target → rules.redirects
  frees : ∀ slot, request.frees? = some slot → slot ∈ mine.map Guard.slot

/-- A prototype that was assembled from valid parts is valid. -/
def Assembled (m : Machine) : (request : Request) → request.Answer → Prop
  | .assemble p, ref =>
      (∀ value ∈ p.constants, rules.Valid m value)
        → (∀ child ∈ p.nested, rules.ValidPrototype m child) → rules.ValidPrototype m ref
  | _, _ => True

/-- What an answer hands out is valid. -/
structure Answered (m : Machine) (request : Request) (answer : request.Answer) : Prop where
  values : ∀ value ∈ request.handedOut answer, rules.Valid m value
  assembled : rules.Assembled m request answer

/-- The outcome of a call hands out valid values only. -/
def ValidOutcome (m : Machine) : Except Fault (List Value) → Prop
  | .ok results => ∀ value ∈ results, rules.Valid m value
  | .error fault => rules.Tolerates fault

/-- The closure that a call is made for is valid. -/
def ValidCaller (m : Machine) (caller : Option ClosureRef) : Prop :=
  ∀ ref, caller = some ref → rules.Valid m (.closure ref)

/-- What is left of a function of the host keeps the rules from a machine on, if the slots
`mine` belong to it; by recursion over what it does.
-/
def Behaves : HostProgram → List Guard → Machine → Prop
  | .finish results, _, m => ∀ value ∈ results, rules.Valid m value
  | .fail fault, _, _ => rules.Tolerates fault
  | .call f arguments next, mine, m =>
      (∀ value ∈ f :: arguments, rules.Valid m value)
        ∧ ∀ after outcome, rules.Later m after → rules.ValidOutcome after outcome
          → Behaves (next outcome) mine after
  | .ask request next, mine, m =>
      rules.Permits m mine request
        ∧ (∀ after answer, rules.Later m after → rules.Answered after request answer
          → Behaves (next (.ok answer)) (request.owned answer mine) after)
        ∧ ∀ after failure, rules.Later m after → rules.Tolerates failure
          → Behaves (next (.error failure)) mine after
  | .create _ body bound next, mine, m =>
      (∀ value ∈ bound, rules.Valid m value)
        ∧ (∀ caller arguments later, (∀ value ∈ bound, rules.Valid later value)
          → rules.ValidCaller later caller → (∀ value ∈ arguments, rules.Valid later value)
          → Behaves (body caller arguments) [] later)
        ∧ (∀ after ref, rules.Later m after → rules.Valid after (.native ref)
          → Behaves (next (.ok ref)) mine after)
        ∧ ∀ after failure, rules.Later m after → rules.Tolerates failure
          → Behaves (next (.error failure)) mine after

/-- A function of the host keeps the rules whenever it is called with valid values while
those that it keeps alive are valid.
-/
def BehavesBound (body : HostFunction) (bound : List Value) : Prop :=
  ∀ caller arguments m, (∀ value ∈ bound, rules.Valid m value) → rules.ValidCaller m caller
    → (∀ value ∈ arguments, rules.Valid m value) → rules.Behaves (body caller arguments) [] m

/-- A native keeps the rules: a wrapper keeps alive what it calls. -/
def Conforms (n : Native) : Prop :=
  match n.body with
  | .script _ | .method .. => True
  | .wrapper inner => inner ∈ n.bound
  | .host f => rules.BehavesBound f n.bound

end Rules
end HookMachine
