import HookMachine.Proofs.Likeness.Tables

/-!
Closures, natives, prototypes and whole machines that are alike by a tie. Functions of the host
are alike if they do like things whatever like things they are told, so that they may pass
objects around and compare them, but learn nothing else from them.
-/

namespace HookMachine

/-- Requests that name no object and whose answers tell of none. -/
def Request.isPlain : Request → Bool
  | collect | release _ | guardCount | environmentCount | hookCount | setEnabled .. | disconnect _
  | connectionsOf _ | connection _ | connectionCount | level | setLevel _ | isTrusted | require ..
  | contextCount | isAlive => true
  | _ => false

namespace Tie

variable (t : Tie)

-----------------------------------------------------------------------------------------
-- Requests
-----------------------------------------------------------------------------------------

/-- Prototypes are shared by name. -/
structure PrototypeRefs (a b : PrototypeRef) : Prop where
  same : a = b
  known : t.prototype a

/-- Prototypes that run alike: they differ in nothing but their constants, which are alike, and in
how many registers they ask for.
-/
structure Prototypes (p q : Prototype) : Prop where
  name : p.name = q.name
  source : p.source = q.source
  line : p.line = q.line
  code : p.code = q.code
  constants : p.constants.toList.Forall₂ t.Values q.constants.toList
  nested : p.nested = q.nested
  known : ∀ child ∈ p.nested, t.prototype child
  parameters : p.parameters = q.parameters
  variadic : p.variadic = q.variadic
  upvalues : p.upvalues = q.upvalues

/-- Prototypes that differ in nothing but their constants, which are alike. -/
structure Assembled (p q : Prototype) : Prop extends t.Prototypes p q where
  window : p.window = q.window

structure Guards (g h : Guard) : Prop where
  slot : g.slot = h.slot
  value : t.Values g.value h.value

inductive Owners : EnvironmentOwner → EnvironmentOwner → Prop
  | runtime : Owners .runtime .runtime
  | script {v w : Value} (id : t.Values v w) : Owners (.script v) (.script w)
  | module {v w : Value} (id : t.Values v w) : Owners (.module v) (.module w)

inductive Nesteds : Nested → Nested → Prop
  | description (info : PrototypeInfo) : Nesteds (.description info) (.description info)
  | closure {a b : ClosureRef} (tied : t.ClosureRefs a b) : Nesteds (.closure a) (.closure b)

/-- Requests that ask the same of like objects, and how their answers are related. The objects of
a heap can be counted and listed only where all of them are tied, and entries begin at the same
depth in both runs.
-/
inductive Requests : (r s : Request) → (r.Answer → s.Answer → Prop) → Prop
  | plain {r : Request} (plain : r.isPlain = true) : Requests r r Eq
  | newTable : Requests .newTable .newTable t.TableRefs
  | assemble {p q : Prototype} (alike : t.Assembled p q)
    : Requests (.assemble p) (.assemble q) t.PrototypeRefs
  | instantiate {p : PrototypeRef} (known : t.prototype p) {e f : Option TableRef}
    (environment : Option.Rel t.TableRefs e f)
    : Requests (.instantiate p e) (.instantiate p f) t.ClosureRefs
  | load {o o' : EnvironmentOwner} (owner : t.Owners o o') {p : PrototypeRef}
    (known : t.prototype p)
    : Requests (.load o p) (.load o' p) t.ClosureRefs
  | contents {a b : TableRef} (tied : t.TableRefs a b)
    : Requests (.contents a) (.contents b) t.Tables
  | rawGet {a b : TableRef} (tied : t.TableRefs a b) {k l : Value} (key : t.Values k l)
    : Requests (.rawGet a k) (.rawGet b l) t.Values
  | rawSet {a b : TableRef} (tied : t.TableRefs a b) {k l v w : Value} (key : t.Values k l)
    (value : t.Values v w)
    : Requests (.rawSet a k v) (.rawSet b l w) Eq
  | metatable {v w : Value} (value : t.Values v w)
    : Requests (.metatable v) (.metatable w) (Option.Rel t.TableRefs)
  | setMetatable {a b : TableRef} (tied : t.TableRefs a b) {e f : Option TableRef}
    (metatable : Option.Rel t.TableRefs e f)
    : Requests (.setMetatable a e) (.setMetatable b f) Eq
  | isReadOnly {a b : TableRef} (tied : t.TableRefs a b)
    : Requests (.isReadOnly a) (.isReadOnly b) Eq
  | setReadOnly {a b : TableRef} (tied : t.TableRefs a b) (on : Bool)
    : Requests (.setReadOnly a on) (.setReadOnly b on) Eq
  | closureEnvironment {a b : ClosureRef} (tied : t.ClosureRefs a b)
    : Requests (.closureEnvironment a) (.closureEnvironment b) t.TableRefs
  | upvalueCount {a b : ClosureRef} (tied : t.ClosureRefs a b)
    : Requests (.upvalueCount a) (.upvalueCount b) Eq
  | functionName {v w : Value} (f : t.Values v w)
    : Requests (.functionName v) (.functionName w) Eq
  | clone {v w : Value} (f : t.Values v w)
    : Requests (.clone v) (.clone w) (Option.Rel t.Values)
  | redirect {a b : ClosureRef} (tied : t.ClosureRefs a b) {o p : Option Value}
    (target : Option.Rel t.Values o p)
    : Requests (.redirect a o) (.redirect b p) Eq
  | checkOwner {v w : Value} (value : t.Values v w) : Requests (.checkOwner v) (.checkOwner w) Eq
  | stats (whole : t.Whole) : Requests .stats .stats Eq
  | objects (whole : t.Whole) (tables : Bool) : Requests (.objects tables) (.objects tables) Eq
  | filter (whole : t.Whole) (kind : ObjectKind) (criteria : Criteria)
    : Requests (.filter kind criteria) (.filter kind criteria) Eq
  | call (level : t.shift = 0) {v w : Value} (f : t.Values v w) {xs ys : List Value}
    (arguments : t.Lists xs ys)
    : Requests (.call v xs) (.call w ys) t.Lists
  | index (level : t.shift = 0) {v w k l : Value} (object : t.Values v w) (key : t.Values k l)
    : Requests (.index v k) (.index w l) t.Values
  | assign (level : t.shift = 0) {v w k l x y : Value} (object : t.Values v w)
    (key : t.Values k l) (value : t.Values x y)
    : Requests (.assign v k x) (.assign w l y) Eq
  | readShared (level : t.shift = 0) (name : String)
    : Requests (.readShared name) (.readShared name) t.Values
  | fire (level : t.shift = 0) (index : Nat) {xs ys : List Value} (arguments : t.Lists xs ys)
    : Requests (.fire index xs) (.fire index ys) Eq
  | fireSignal (level : t.shift = 0) (signal : String) {xs ys : List Value}
    (arguments : t.Lists xs ys)
    : Requests (.fireSignal signal xs) (.fireSignal signal ys) Eq
  | retain {v w : Value} (value : t.Values v w) : Requests (.retain v) (.retain w) Eq
  | resolve (slot : Handle) : Requests (.resolve slot) (.resolve slot) (Option.Rel t.Values)
  | retained : Requests .retained .retained t.Lists
  | hold {v w : Value} (value : t.Values v w) : Requests (.hold v) (.hold w) t.Guards
  | letGo {g h : Guard} (guard : t.Guards g h) : Requests (.letGo g) (.letGo h) Eq
  | environment {o o' : EnvironmentOwner} (owner : t.Owners o o')
    : Requests (.environment o) (.environment o') t.TableRefs
  | hook {v w x y : Value} (target : t.Values v w) (replacement : t.Values x y)
    : Requests (.hook v x) (.hook w y) (Option.Rel t.ClosureRefs)
  | unhook {v w : Value} (target : t.Values v w) : Requests (.unhook v) (.unhook w) Eq
  | hookMetamethod {v w x y : Value} (object : t.Values v w) (name : String)
    (replacement : t.Values x y)
    : Requests (.hookMetamethod v name x) (.hookMetamethod w name y) t.Values
  | unhookMetamethod {v w : Value} (object : t.Values v w) (name : String)
    : Requests (.unhookMetamethod v name) (.unhookMetamethod w name) Eq
  | isHooked {v w : Value} (f : t.Values v w) : Requests (.isHooked v) (.isHooked w) Eq
  | isOwned {v w : Value} (f : t.Values v w) : Requests (.isOwned v) (.isOwned w) Eq
  | isRuntimeFunction {v w : Value} (f : t.Values v w)
    : Requests (.isRuntimeFunction v) (.isRuntimeFunction w) Eq
  | constant {v w : Value} (f : t.Values v w) (position : Int)
    : Requests (.constant v position) (.constant w position) (Option.Rel t.Values)
  | setConstant {v w x y : Value} (f : t.Values v w) (position : Int) (value : t.Values x y)
    : Requests (.setConstant v position x) (.setConstant w position y) Eq
  | constants {v w : Value} (f : t.Values v w)
    : Requests (.constants v) (.constants w) (Option.Rel t.Lists)
  | info {v w : Value} (f : t.Values v w) : Requests (.info v) (.info w) Eq
  | nested {v w : Value} (f : t.Values v w) (position : Int) (activate : Bool)
    : Requests (.nested v position activate) (.nested w position activate)
        (Option.Rel t.Nesteds)
  | digest {v w : Value} (f : t.Values v w) : Requests (.digest v) (.digest w) Eq
  | wrap {v w : Value} (f : t.Values v w) : Requests (.wrap v) (.wrap w) t.Values
  | connect (signal : String) {v w : Value} (callback : t.Values v w)
    : Requests (.connect signal v) (.connect signal w) Eq
  | report (name : String) {xs ys : List Value} (values : t.Lists xs ys)
    : Requests (.report name xs) (.report name ys) Eq

-----------------------------------------------------------------------------------------
-- Functions of the host
-----------------------------------------------------------------------------------------

/-- Programs of the host that do like things, whatever like answers they get. -/
inductive Programs : HostProgram → HostProgram → Prop
  | finish {xs ys : List Value} (results : t.Lists xs ys) : Programs (.finish xs) (.finish ys)
  | fail (fault : Fault) : Programs (.fail fault) (.fail fault)
  | call {v w : Value} (f : t.Values v w) {xs ys : List Value} (arguments : t.Lists xs ys)
    {next next' : Except Fault (List Value) → HostProgram}
    (rest : ∀ o p, Matched t.Lists o p → Programs (next o) (next' p))
    : Programs (.call v xs next) (.call w ys next')
  | ask {r s : Request} {answers : r.Answer → s.Answer → Prop} (request : t.Requests r s answers)
    {next : Except Failure r.Answer → HostProgram} {next' : Except Failure s.Answer → HostProgram}
    (rest : ∀ o p, Matched answers o p → Programs (next o) (next' p))
    : Programs (.ask r next) (.ask s next')
  | create (name : String) {body body' : HostFunction}
    (runs : ∀ {c d xs ys}, Option.Rel t.ClosureRefs c d → t.Lists xs ys
      → Programs (body c xs) (body' d ys))
    {bound bound' : List Value} (kept : t.Lists bound bound')
    {next next' : Except Failure NativeRef → HostProgram}
    (rest : ∀ o p, Matched t.NativeRefs o p → Programs (next o) (next' p))
    : Programs (.create name body bound next) (.create name body' bound' next')

/-- Functions of the host that do like things, whatever calls them with like arguments. -/
def HostFunctions (f g : HostFunction) : Prop :=
  ∀ {c d xs ys}, Option.Rel t.ClosureRefs c d → t.Lists xs ys → t.Programs (f c xs) (g d ys)

-----------------------------------------------------------------------------------------
-- Objects
-----------------------------------------------------------------------------------------

/-- What natives do alike. A method of a connection only compares the handle that it is for. -/
inductive Bodies : NativeBody → NativeBody → Prop
  | script (f : ScriptFunction) : Bodies (.script f) (.script f)
  | method (m : ConnectionMethod) (index : Nat) {a b : TableRef}
    (owner : t.recalls (.table a) (.table b))
    : Bodies (.method m index a) (.method m index b)
  | wrapper {v w : Value} (inner : t.Values v w) : Bodies (.wrapper v) (.wrapper w)
  | host {f g : HostFunction} (alike : t.HostFunctions f g) : Bodies (.host f) (.host g)

structure Natives (n o : Native) : Prop where
  name : n.name = o.name
  body : t.Bodies n.body o.body
  bound : t.Lists n.bound o.bound
  marked : n.marked = o.marked

structure Closures (c d : Closure) : Prop where
  prototype : c.prototype = d.prototype
  known : t.prototype c.prototype
  upvalues : c.upvalues = d.upvalues
  cells : ∀ cell ∈ c.upvalues, t.cell cell
  environment : t.TableRefs c.environment d.environment
  redirect : Option.Rel t.Values c.redirect d.redirect
  marked : c.marked = d.marked

-----------------------------------------------------------------------------------------
-- Registries
-----------------------------------------------------------------------------------------

structure FunctionHooks (h k : FunctionHook) : Prop where
  target : t.Guards h.target k.target
  former : t.Guards h.former k.former
  replacement : t.Guards h.replacement k.replacement

structure MetamethodHooks (h k : MetamethodHook) : Prop where
  previous : t.Guards h.previous k.previous
  former : t.Guards h.former k.former
  replacement : t.Guards h.replacement k.replacement

structure HookedClosures (entry other : ClosureRef × FunctionHook) : Prop where
  key : t.ClosureRefs entry.1 other.1
  hook : t.FunctionHooks entry.2 other.2

/-- The metatable of a hooked slot need not be kept alive by its hook. -/
structure HookedSlots (entry other : MetamethodSlot × MetamethodHook) : Prop where
  metatable : t.recalls (.table entry.1.1) (.table other.1.1)
  name : entry.1.2 = other.1.2
  hook : t.MetamethodHooks entry.2 other.2

structure Hooks (r s : HookRegistry) : Prop where
  functions : r.functions.Forall₂ t.HookedClosures s.functions
  metamethods : r.metamethods.Forall₂ t.HookedSlots s.metamethods

/-- What is on record for the owner of an environment, who need not be kept alive by it. -/
structure Recorded (entry other : Value × Guard) : Prop where
  id : t.Recalled entry.1 other.1
  guard : t.Guards entry.2 other.2

structure Environments (c d : EnvironmentCache) : Prop where
  fallback : Option.Rel t.Guards c.fallback d.fallback
  shared : Option.Rel t.Guards c.shared d.shared
  scripts : c.scripts.Forall₂ t.Recorded d.scripts
  modules : c.modules.Forall₂ t.Recorded d.modules

structure SingleConnections (c d : Connection) : Prop where
  signal : c.signal = d.signal
  callback : Option.Rel t.Guards c.callback d.callback
  enabled : c.enabled = d.enabled

/-- Connections that are alike one by one. -/
def Connections (r s : ConnectionRegistry) : Prop :=
  r.toList.Forall₂ t.SingleConnections s.toList

/-- What was reported, which nothing need keep alive. -/
structure Reports (entry other : String × List Value) : Prop where
  name : entry.1 = other.1
  values : entry.2.Forall₂ t.Recalled other.2

-----------------------------------------------------------------------------------------
-- Machines
-----------------------------------------------------------------------------------------

/-- Machines that show like things wherever running code can look: tied references are both
dangling or lead to like objects.
-/
structure Machines (m n : Machine) : Prop where
  tables {a b : TableRef} : t.TableRefs a b
    → Matched t.Tables (m.heap.tables.get a.handle) (n.heap.tables.get b.handle)
  closures {a b : ClosureRef} : t.ClosureRefs a b
    → Matched t.Closures (m.heap.closures.get a.handle) (n.heap.closures.get b.handle)
  natives {a b : NativeRef} : t.NativeRefs a b
    → Matched t.Natives (m.heap.natives.get a.handle) (n.heap.natives.get b.handle)
  slots (slot : Handle) : Matched t.Values (m.heap.retained.get slot) (n.heap.retained.get slot)
  retained : t.Lists (m.heap.retained.toList.map Prod.snd) (n.heap.retained.toList.map Prod.snd)
  owns {v w : Value} : t.Values v w → m.heap.owns v = n.heap.owns w
  globals : t.TableRefs m.globals n.globals
  cells {c : CellRef} : t.cell c → t.Values (m.cells.getD c.index .nil) (n.cells.getD c.index .nil)
  cellCount : m.cells.size = n.cells.size
  prototypes {p : PrototypeRef} : t.prototype p
    → t.Prototypes (m.prototypes.get p) (n.prototypes.get p)
  prototypeCount : m.prototypes.prototypes.size = n.prototypes.prototypes.size
  privilegedLevel : m.config.privilegedLevel = n.config.privilegedLevel
  activeCalls : m.activeCalls = n.activeCalls
  context : m.context = n.context
  alive : m.alive = n.alive
  guards : m.guards = n.guards
  environments : t.Environments m.environments n.environments
  hooks : t.Hooks m.hooks n.hooks
  connections : t.Connections m.connections n.connections
  identities : m.identities = n.identities
  reports : m.reports.toList.Forall₂ t.Reports n.reports.toList
  heap : t.Whole → m.heap = n.heap

end Tie
end HookMachine
