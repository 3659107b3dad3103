import HookMachine.Execution.Instruction
import HookMachine.Proofs.Execution.Outcomes
import Mathlib.Logic.Relation

/-!
What operations do to a machine, taken apart into single changes. Some changes any code may make at any
time; the others are deeds, which a scope allows or not. A judgement says that an operation keeps
within a scope, with a rule for each way to put operations together.
-/

namespace HookMachine

-----------------------------------------------------------------------------------------
-- Changes
-----------------------------------------------------------------------------------------

/-- What an operation may do only where it is allowed to. -/
inductive Deed where
  /-- Turns the write protection of a table on or off. -/
  | shield (table : TableRef) (on : Bool)
  /-- Gives a table another metatable, or none. -/
  | attach (table : TableRef)
  /-- Writes fields of a table that is not protected. -/
  | write (table : TableRef)
  /-- Writes fields of a table whether it is protected or not. -/
  | patch (table : TableRef)
  /-- Puts hooks on record. -/
  | hook
  /-- Puts environments on record. -/
  | record
  /-- Adds prototypes or changes their constants. -/
  | program
deriving DecidableEq, Repr

/-- From where an operation is told, and the deeds that it is allowed. -/
structure Scope where
  origin : Machine
  allows : Deed → Prop

/-- Every closure is still there and has its environment. -/
def Machine.Homes (m after : Machine) : Prop :=
  ∀ (ref : ClosureRef) c, m.heap.closures.get ref.handle = .ok c
    → ∃ now, after.heap.closures.get ref.handle = .ok now ∧ now.environment = c.environment

/-- Machines that have the same tables, prototypes, environments, hooks and levels, and closures with
the same environments.
-/
structure Machine.Beside (m after : Machine) : Prop where
  tables : after.heap.tables = m.heap.tables
  heap : after.heap.id = m.heap.id
  prototypes : after.prototypes = m.prototypes
  globals : after.globals = m.globals
  config : after.config = m.config
  context : after.context = m.context
  alive : after.alive = m.alive
  environments : after.environments = m.environments
  hooks : after.hooks = m.hooks
  identities : after.identities = m.identities
  closures : m.Homes after

/-- Machines that differ in nothing but in what is counted and in natives that were added. -/
structure Machine.Near (m after : Machine) : Prop where
  same : ∃ natives activeCalls steps,
    after = { m with heap.natives := natives, activeCalls, steps }
  natives : ∀ (ref : NativeRef) n, m.heap.natives.get ref.handle = .ok n
    → after.heap.natives.get ref.handle = .ok n

/-- What is settled before an operation begins. -/
structure Machine.Fixed (m after : Machine) : Prop where
  heap : after.heap.id = m.heap.id
  globals : after.globals = m.globals
  config : after.config = m.config
  context : after.context = m.context
  alive : after.alive = m.alive

/-- A change of a table is a change of its fields. -/
def Table.Refills (change : Table → Table) : Prop :=
  ∀ t, ∃ array hash, change t = { t with array, hash }

namespace Scope

/-- A table that was not there where an operation is told from. -/
def Fresh (s : Scope) (ref : TableRef) : Prop :=
  s.origin.heap.isLive (.table ref) = false

/-- One change within a scope. -/
inductive Change (s : Scope) (m : Machine) : Machine → Prop
  | beside {after} (beside : m.Beside after) : s.Change m after
  | made : s.Change m { m with heap.tables := (m.heap.tables.insert {}).2 }
  | written {ref t change} (found : m.heap.tables.get ref.handle = .ok t)
    (writable : t.readOnly = false) (refills : Table.Refills change)
    (allowed : s.Fresh ref ∨ s.allows (.write ref))
    : s.Change m { m with heap.tables := m.heap.tables.modify ref.handle change }
  | patched {ref change} (refills : Table.Refills change) (allowed : s.allows (.patch ref))
    : s.Change m { m with heap.tables := m.heap.tables.modify ref.handle change }
  | attached {ref metatable} (allowed : s.Fresh ref ∨ s.allows (.attach ref))
    : s.Change m { m with heap.tables := m.heap.tables.modify ref.handle ({ · with metatable }) }
  | shielded {ref readOnly} (allowed : s.Fresh ref ∨ s.allows (.shield ref readOnly))
    : s.Change m { m with heap.tables := m.heap.tables.modify ref.handle ({ · with readOnly }) }
  /-- The metatable of all environments is made. -/
  | founded {guard ref} (allowed : s.allows .record) (missing : m.environments.fallback = none)
    (holds : guard.value = .table ref) (live : m.heap.isLive (.table ref) = true)
    : s.Change m { m with environments.fallback := some guard }
  /-- An environment is put on record, the only one since the origin. -/
  | recorded {guard owner ref} (allowed : s.allows .record)
    (same : ∀ other, m.environments.find? other = s.origin.environments.find? other)
    (missing : m.environments.find? owner = none) (holds : guard.value = .table ref)
    (fresh : s.Fresh ref) (live : m.heap.isLive (.table ref) = true)
    : s.Change m { m with environments := m.environments.insert guard owner }
  | unhooked {hooks} (functions : hooks.functions.Sublist m.hooks.functions)
    (metamethods : hooks.metamethods.Sublist m.hooks.metamethods)
    : s.Change m { m with hooks }
  | hooked {hooks} (allowed : s.allows .hook) : s.Change m { m with hooks }
  | programmed {prototypes} (allowed : s.allows .program) : s.Change m { m with prototypes }
  /-- The level of the calling context is looked at. -/
  | observed : s.Change m { m with identities := m.identities.observe m.context }

/-- What a machine becomes within a scope. -/
abbrev Leads (s : Scope) : Machine → Machine → Prop :=
  Relation.ReflTransGen s.Change

/-- No table of the origin is gone. -/
def Precedes (s : Scope) (m : Machine) : Prop :=
  ∀ ref, s.origin.heap.isLive (.table ref) = true → m.heap.isLive (.table ref) = true

/-- The scope in which environments do not go on record. -/
def closed (s : Scope) : Scope :=
  { s with allows := fun deed => s.allows deed ∧ deed ≠ .record }

/-- The scope in which some tables may be patched as well. -/
def patching (s : Scope) (tables : TableRef → Prop) : Scope :=
  { s with allows := fun deed => s.allows deed ∨ ∃ ref, tables ref ∧ deed = .patch ref }

end Scope

namespace Machine.Homes

variable {m middle after : Machine}

theorem refl (m : Machine) : m.Homes m :=
  fun _ c found => ⟨c, found, rfl⟩

theorem trans (first : m.Homes middle) (second : middle.Homes after) : m.Homes after := by
  intro ref c found
  obtain ⟨between, held, same⟩ := first ref c found
  obtain ⟨now, held, also⟩ := second ref between held
  exact ⟨now, held, also.trans same⟩

end Machine.Homes

namespace Machine.Beside

variable {m middle after : Machine}

theorem refl (m : Machine) : m.Beside m :=
  ⟨rfl, rfl, rfl, rfl, rfl, rfl, rfl, rfl, rfl, rfl, .refl _⟩

theorem trans (first : m.Beside middle) (second : middle.Beside after) : m.Beside after where
  tables := second.tables.trans first.tables
  heap := second.heap.trans first.heap
  prototypes := second.prototypes.trans first.prototypes
  globals := second.globals.trans first.globals
  config := second.config.trans first.config
  context := second.context.trans first.context
  alive := second.alive.trans first.alive
  environments := second.environments.trans first.environments
  hooks := second.hooks.trans first.hooks
  identities := second.identities.trans first.identities
  closures := first.closures.trans second.closures

end Machine.Beside

namespace Machine.Near

variable {m middle after : Machine}

theorem refl (m : Machine) : m.Near m :=
  ⟨⟨m.heap.natives, m.activeCalls, m.steps, rfl⟩, fun _ _ => id⟩

theorem trans (first : m.Near middle) (second : middle.Near after) : m.Near after := by
  refine ⟨?_, fun ref n held => second.natives ref n (first.natives ref n held)⟩
  obtain ⟨_, _, _, rfl⟩ := first.same
  obtain ⟨natives, activeCalls, steps, rfl⟩ := second.same
  exact ⟨natives, activeCalls, steps, rfl⟩

theorem counted (m : Machine) (activeCalls steps : Nat) : m.Near { m with activeCalls, steps } :=
  ⟨⟨m.heap.natives, activeCalls, steps, rfl⟩, fun _ _ => id⟩

theorem beside (near : m.Near after) : m.Beside after := by
  obtain ⟨_, _, _, rfl⟩ := near.same
  exact ⟨rfl, rfl, rfl, rfl, rfl, rfl, rfl, rfl, rfl, rfl, .refl _⟩

end Machine.Near

theorem Machine.Fixed.trans {m middle after : Machine} (first : m.Fixed middle)
    (second : middle.Fixed after)
    : m.Fixed after where
  heap := second.heap.trans first.heap
  globals := second.globals.trans first.globals
  config := second.config.trans first.config
  context := second.context.trans first.context
  alive := second.alive.trans first.alive

theorem Machine.beside_letGo (m : Machine) (guard : Guard) : m.Beside (m.letGo guard) :=
  ⟨rfl, rfl, rfl, rfl, rfl, rfl, rfl, rfl, rfl, rfl, .refl _⟩

theorem Machine.beside_letGoAll (m : Machine) (guards : List Guard)
    : m.Beside (m.letGoAll guards) := by
  unfold letGoAll
  induction guards generalizing m with
  | nil => exact .refl m
  | cons guard rest ih => exact (m.beside_letGo guard).trans (ih _)

theorem Machine.beside_hold (m : Machine) (value : Value) : m.Beside (m.hold value).2 :=
  ⟨rfl, rfl, rfl, rfl, rfl, rfl, rfl, rfl, rfl, rfl, .refl _⟩

-----------------------------------------------------------------------------------------
-- Tables
-----------------------------------------------------------------------------------------

namespace Table

variable {change other : Table → Table}

namespace Refills

theorem metatable (refills : Refills change) (t : Table)
    : (change t).metatable = t.metatable := by
  obtain ⟨array, hash, changed⟩ := refills t
  rw [changed]

theorem readOnly (refills : Refills change) (t : Table) : (change t).readOnly = t.readOnly := by
  obtain ⟨array, hash, changed⟩ := refills t
  rw [changed]

theorem refl : Refills id :=
  fun t => ⟨t.array, t.hash, rfl⟩

theorem comp (second : Refills other) (first : Refills change)
    : Refills fun t => other (change t) := by
  intro t
  obtain ⟨array, hash, changed⟩ := first t
  obtain ⟨array', hash', also⟩ := second (change t)
  exact ⟨array', hash', also.trans (by rw [changed])⟩

end Refills

theorem refills_absorb (fuel : Nat) : Refills (absorb fuel) := by
  induction fuel with
  | zero => exact .refl
  | succ fuel ih =>
      intro t
      unfold absorb
      dsimp only
      split
      · exact ⟨t.array, t.hash, rfl⟩
      · rename_i value _
        obtain ⟨array, hash, changed⟩ := ih _
        exact ⟨array, hash, changed⟩

theorem refills_setHash (key value : Value) : Refills (setHash · key value) := by
  intro t
  unfold setHash
  split
  · exact ⟨t.array, _, rfl⟩
  · exact ⟨t.array, _, rfl⟩

theorem refills_set (key value : Value) : Refills (set · key value) := by
  intro t
  unfold set
  split <;> dsimp only
  · exact refills_setHash key value t
  · split
    · obtain ⟨array, hash, changed⟩ := refills_absorb t.hash.length _
      exact ⟨array, hash, changed⟩
    · split
      · exact ⟨_, t.hash, rfl⟩
      · exact refills_setHash key value t

/-- A list is stored field by field, by induction over its values. -/
theorem refills_storeList (start : Nat) (values : List Value)
    : Refills (Vm.storeList · start values) := by
  induction values generalizing start with
  | nil => exact .refl
  | cons value rest ih => exact (ih (start + 1)).comp (refills_set _ value)

end Table

-----------------------------------------------------------------------------------------
-- What every change leaves
-----------------------------------------------------------------------------------------

namespace Scope

variable {s : Scope} {m middle after : Machine} {ref : TableRef}

/-- Nothing is removed. -/
theorem Change.live (change : s.Change m after) (live : m.heap.isLive (.table ref) = true)
    : after.heap.isLive (.table ref) = true := by
  have modified (handle : Handle) (change : Table → Table)
      : (m.heap.tables.modify handle change).contains ref.handle = true := by
    rw [Arena.contains_modify]
    exact live
  cases change with
  | beside beside => exact (congrArg (·.contains ref.handle) beside.tables).trans live
  | made =>
      obtain ⟨t, found⟩ := Arena.contains_iff.mp live
      exact Arena.contains_iff.mpr ⟨t, Arena.get_insert_of_get {} found⟩
  | written | patched | attached | shielded => exact modified ..
  | founded | recorded | unhooked | hooked | programmed | observed => exact live

theorem Leads.live (leads : s.Leads m after) (live : m.heap.isLive (.table ref) = true)
    : after.heap.isLive (.table ref) = true := by
  induction leads with
  | refl => exact live
  | tail _ change ih => exact change.live ih

/-- What may become of a table that was there in the origin. -/
structure Turns (s : Scope) (ref : TableRef) (before after : Table) : Prop where
  fields : (after.array = before.array ∧ after.hash = before.hash)
    ∨ (before.readOnly = false ∧ s.allows (.write ref)) ∨ s.allows (.patch ref)
  metatable : after.metatable = before.metatable ∨ s.allows (.attach ref)
  readOnly : after.readOnly = before.readOnly ∨ s.allows (.shield ref after.readOnly)

theorem Turns.refl (t : Table) : s.Turns ref t t :=
  ⟨.inl ⟨rfl, rfl⟩, .inl rfl, .inl rfl⟩

/-- A table that was there in the origin turns into what the change that reaches it makes of it. -/
theorem Change.turns (change : s.Change m after) {before : Table}
    (found : m.heap.tables.get ref.handle = .ok before)
    (there : s.origin.heap.isLive (.table ref) = true)
    : ∃ t, after.heap.tables.get ref.handle = .ok t ∧ s.Turns ref before t := by
  have modified {handle : Handle} {change : Table → Table}
      (turns : ref.handle = handle → s.Turns ref before (change before))
      : ∃ t, (m.heap.tables.modify handle change).get ref.handle = .ok t ∧ s.Turns ref before t := by
    refine ⟨_, Arena.get_modify.mpr ⟨before, found, rfl⟩, ?_⟩
    split
    · rename_i same
      exact turns same
    · exact .refl before
  have settled {deed : Deed} (allowed : s.Fresh ref ∨ s.allows deed) : s.allows deed :=
    allowed.resolve_left fun fresh => Bool.false_ne_true (fresh.symm.trans there)
  cases change with
  | beside beside => exact ⟨before, by rw [beside.tables, found], .refl before⟩
  | made => exact ⟨before, Arena.get_insert_of_get {} found, .refl before⟩
  | @written other t change held writable refills allowed =>
      refine modified fun same => ?_
      have same : ref = other := congrArg TableRef.mk same
      subst same
      cases held.symm.trans found
      have fields : before.readOnly = false ∧ s.allows (.write ref) := ⟨writable, settled allowed⟩
      exact ⟨.inr (.inl fields), .inl (refills.metatable _), .inl (refills.readOnly _)⟩
  | @patched other change refills allowed =>
      refine modified fun same => ?_
      have same : ref = other := congrArg TableRef.mk same
      subst same
      exact ⟨.inr (.inr allowed), .inl (refills.metatable _), .inl (refills.readOnly _)⟩
  | @attached other metatable allowed =>
      refine modified fun same => ?_
      have same : ref = other := congrArg TableRef.mk same
      subst same
      exact ⟨.inl ⟨rfl, rfl⟩, .inr (settled allowed), .inl rfl⟩
  | @shielded other readOnly allowed =>
      refine modified fun same => ?_
      have same : ref = other := congrArg TableRef.mk same
      subst same
      exact ⟨.inl ⟨rfl, rfl⟩, .inl rfl, .inr (settled allowed)⟩
  | founded | recorded | unhooked | hooked | programmed | observed =>
      exact ⟨before, found, .refl before⟩

theorem Change.homes (change : s.Change m after) : m.Homes after := by
  cases change with
  | beside beside => exact beside.closures
  | _ => exact .refl _

theorem Leads.homes (leads : s.Leads m after) : m.Homes after := by
  induction leads with
  | refl => exact .refl m
  | tail _ change ih => exact ih.trans change.homes

theorem Change.fixed (change : s.Change m after) : m.Fixed after := by
  cases change with
  | beside beside =>
      exact ⟨beside.heap, beside.globals, beside.config, beside.context, beside.alive⟩
  | _ => exact ⟨rfl, rfl, rfl, rfl, rfl⟩

theorem Leads.fixed (leads : s.Leads m after) : m.Fixed after := by
  induction leads with
  | refl => exact ⟨rfl, rfl, rfl, rfl, rfl⟩
  | tail _ change ih => exact ih.trans change.fixed

theorem Leads.precedes (leads : s.Leads m after) (precedes : s.Precedes m) : s.Precedes after :=
  fun ref there => leads.live (precedes ref there)

/-- What is done where less is allowed is done where more is. -/
theorem Change.mono {wider : Scope} (change : s.Change m after) (origin : wider.origin = s.origin)
    (allowed : ∀ deed, s.allows deed → wider.allows deed)
    : wider.Change m after := by
  have fresh {ref : TableRef} (fresh : s.Fresh ref) : wider.Fresh ref := by
    unfold Fresh
    rw [origin]
    exact fresh
  cases change with
  | beside beside => exact .beside beside
  | made => exact .made
  | written found writable refills allows =>
      exact .written found writable refills (allows.imp fresh (allowed _))
  | patched refills allows => exact .patched refills (allowed _ allows)
  | attached allows => exact .attached (allows.imp fresh (allowed _))
  | shielded allows => exact .shielded (allows.imp fresh (allowed _))
  | founded allows missing holds live => exact .founded (allowed _ allows) missing holds live
  | recorded allows same missing holds new live =>
      exact .recorded (allowed _ allows) (origin ▸ same) missing holds (fresh new) live
  | unhooked functions metamethods => exact .unhooked functions metamethods
  | hooked allows => exact .hooked (allowed _ allows)
  | programmed allows => exact .programmed (allowed _ allows)
  | observed => exact .observed

theorem Leads.mono {wider : Scope} (leads : s.Leads m after) (origin : wider.origin = s.origin)
    (allowed : ∀ deed, s.allows deed → wider.allows deed)
    : wider.Leads m after := by
  induction leads with
  | refl => exact .refl
  | tail _ change ih => exact ih.tail (change.mono origin allowed)

theorem Leads.of_closed (leads : s.closed.Leads m after) : s.Leads m after :=
  leads.mono rfl fun _ allowed => allowed.1

theorem Leads.environments (leads : s.closed.Leads m after)
    : after.environments = m.environments := by
  induction leads with
  | refl => rfl
  | tail _ change ih =>
      refine Eq.trans ?_ ih
      cases change with
      | beside beside => exact beside.environments
      | founded allowed | recorded allowed => exact absurd rfl allowed.2
      | _ => rfl

end Scope

-----------------------------------------------------------------------------------------
-- Looking
-----------------------------------------------------------------------------------------

variable {ε ε' α β : Type}

/-- An operation only looks at the machine, and ends. -/
structure Run.Looks (x : Run ε α) : Prop where
  outcome : ∀ m, (∃ a, x m = .ok a m) ∨ ∃ error, x m = .error (.failed error) m

namespace Run.Looks

theorem pure (a : α) : Looks (pure a : Run ε α) :=
  ⟨fun _ => .inl ⟨a, rfl⟩⟩

theorem fail (error : ε) : Looks (throw (.failed error) : Run ε α) :=
  ⟨fun _ => .inr ⟨error, rfl⟩⟩

theorem get : Looks (get : Run ε Machine) :=
  ⟨fun m => .inl ⟨m, rfl⟩⟩

theorem andThen {x : Run ε α} {f : α → Run ε β} (first : Looks x) (rest : ∀ a, Looks (f a))
    : Looks (x >>= f) := by
  refine ⟨fun m => ?_⟩
  rcases first.outcome m with ⟨a, ran⟩ | ⟨error, ran⟩
  · rw [Run.bind_ok ran]
    exact (rest a).outcome m
  · exact .inr ⟨error, Run.bind_error ran⟩

theorem forM {f : α → Run ε PUnit} (each : ∀ a, Looks (f a)) (list : List α)
    : Looks (list.forM f) := by
  induction list with
  | nil => exact pure PUnit.unit
  | cons a rest ih => exact (each a).andThen fun _ => ih

end Run.Looks

namespace Scope

-----------------------------------------------------------------------------------------
-- The judgement and its rules
-----------------------------------------------------------------------------------------

variable {s : Scope} {m middle after : Machine}

/-- What an operation has come to from `m` within a scope: a result is as `post` says. -/
def Kept (s : Scope) (m : Machine) (post : α → Machine → Prop)
    : EStateM.Result (Halt ε) Machine α → Prop
  | .ok a after => s.Leads m after ∧ post a after
  | .error _ after => s.Leads m after

/-- An operation keeps within a scope, and a result of it is as `post` says. -/
structure Keeps (s : Scope) (x : Run ε α) (post : α → Prop := fun _ => True) : Prop where
  outcome : ∀ m, s.Precedes m → s.Kept m (fun a _ => post a) (x m)

section Kept

variable {x : Run ε α} {post better : α → Machine → Prop}
  {outcome : EStateM.Result (Halt ε) Machine α}

theorem Kept.mono (kept : s.Kept m post outcome)
    (implies : ∀ a after, s.Leads m after → post a after → better a after)
    : s.Kept m better outcome := by
  cases outcome with
  | ok a after => exact ⟨kept.1, implies a after kept.1 kept.2⟩
  | error halt after => exact kept

theorem Kept.before (kept : s.Kept middle post outcome) (leads : s.Leads m middle)
    : s.Kept m post outcome := by
  cases outcome with
  | ok a after => exact ⟨leads.trans kept.1, kept.2⟩
  | error halt after => exact leads.trans kept

theorem Kept.bind {f : α → Run ε β} {last : β → Machine → Prop} (first : s.Kept m post (x m))
    (rest : ∀ a after, s.Leads m after → post a after → s.Kept after last (f a after))
    : s.Kept m last ((x >>= f) m) := by
  change s.Kept m last (EStateM.bind x f m)
  unfold EStateM.bind
  generalize x m = outcome at *
  cases outcome with
  | ok a after => exact (rest a after first.1 first.2).before first.1
  | error halt after => exact first

theorem Kept.mapError (g : ε → ε') (kept : s.Kept m post (x m))
    : s.Kept m post (Run.mapError g x m) := by
  unfold Run.mapError
  generalize x m = outcome at *
  rcases outcome with ⟨a, after⟩ | ⟨_ | _, after⟩ <;> exact kept

theorem Kept.onHalt {undo : Machine → Machine} (kept : s.Kept m post (x m))
    (undone : ∀ after : Machine, after.Beside (undo after))
    : s.Kept m post (Run.onHalt x undo m) := by
  unfold Run.onHalt
  generalize x m = outcome at *
  cases outcome with
  | ok a after => exact kept
  | error halt after => exact kept.tail (.beside (undone after))

/-- What keeps within the scope in which no environment goes on record leaves those that are. -/
theorem Keeps.closed {post : α → Prop} (keeps : s.closed.Keeps x post) (precedes : s.Precedes m)
    : s.Kept m (fun a after => post a ∧ after.environments = m.environments) (x m) := by
  have kept := keeps.outcome m precedes
  generalize x m = outcome at *
  cases outcome with
  | ok a after => exact ⟨kept.1.of_closed, kept.2, kept.1.environments⟩
  | error halt after => exact Leads.of_closed kept

end Kept

namespace Keeps

variable {x : Run ε α} {post better : α → Prop}

theorem pure {a : α} (holds : post a) : s.Keeps (pure a : Run ε α) post :=
  ⟨fun _ _ => ⟨.refl, holds⟩⟩

theorem fail (error : ε) : s.Keeps (throw (.failed error) : Run ε α) post :=
  ⟨fun _ _ => .refl⟩

/-- A failure keeps what would follow it from being done. -/
theorem failThen (error : ε) (f : α → Run ε β) {last : β → Prop}
    : s.Keeps ((throw (.failed error) : Run ε α) >>= f) last :=
  ⟨fun _ _ => .refl⟩

theorem get : s.Keeps (get : Run ε Machine) :=
  ⟨fun _ _ => ⟨.refl, trivial⟩⟩

theorem bind {f : α → Run ε β} {last : β → Prop} (first : s.Keeps x post)
    (rest : ∀ a, post a → s.Keeps (f a) last)
    : s.Keeps (x >>= f) last :=
  ⟨fun m precedes => (first.outcome m precedes).bind fun a after leads holds =>
    (rest a holds).outcome after (leads.precedes precedes)⟩

/-- What comes second takes no notice of what the first results in. -/
theorem andThen {f : α → Run ε β} {last : β → Prop} (first : s.Keeps x post)
    (rest : ∀ a, s.Keeps (f a) last)
    : s.Keeps (x >>= f) last :=
  first.bind fun a _ => rest a

theorem mono (keeps : s.Keeps x post) (implies : ∀ a, post a → better a) : s.Keeps x better :=
  ⟨fun m precedes => (keeps.outcome m precedes).mono fun a _ _ => implies a⟩

theorem mapError (g : ε → ε') (keeps : s.Keeps x post) : s.Keeps (Run.mapError g x) post :=
  ⟨fun m precedes => (keeps.outcome m precedes).mapError g⟩

/-- Running code as part of an operation of the host. -/
theorem lift {x : Vm α} (keeps : s.Keeps x post) : s.Keeps (liftM x : Action α) post :=
  keeps.mapError _

/-- An operation of the host as part of running code. -/
theorem toVm {x : Action α} (keeps : s.Keeps x post) : s.Keeps x.toVm post :=
  keeps.mapError _

theorem onHalt {undo : Machine → Machine} (keeps : s.Keeps x post)
    (undone : ∀ after : Machine, after.Beside (undo after))
    : s.Keeps (Run.onHalt x undo) post :=
  ⟨fun m precedes => (keeps.outcome m precedes).onHalt undone⟩

theorem modify {change : Machine → Machine} (changes : ∀ m, s.Change m (change m))
    : s.Keeps (modify change : Run ε Unit) :=
  ⟨fun m _ => ⟨.single (changes m), trivial⟩⟩

theorem modifyGet {change : Machine → α × Machine} (changes : ∀ m, s.Change m (change m).2)
    : s.Keeps (modifyGet change : Run ε α) :=
  ⟨fun m _ => ⟨.single (changes m), trivial⟩⟩

theorem forM {f : α → Run ε PUnit} (each : ∀ a, s.Keeps (f a)) (list : List α)
    : s.Keeps (list.forM f) := by
  induction list with
  | nil => exact pure trivial
  | cons a rest ih => exact (each a).andThen fun _ => ih

theorem mapM {f : α → Run ε β} (each : ∀ a, s.Keeps (f a)) (list : List α)
    : s.Keeps (list.mapM f) := by
  induction list with
  | nil => exact pure trivial
  | cons a rest ih =>
      rw [List.mapM_cons]
      exact (each a).andThen fun _ => ih.andThen fun _ => pure trivial

end Keeps
end Scope

/-- What only looks at the machine keeps within any scope. -/
theorem Run.Looks.keeps {s : Scope} {x : Run ε α} (looks : Looks x) : s.Keeps x := by
  refine ⟨fun m _ => ?_⟩
  rcases looks.outcome m with ⟨a, ran⟩ | ⟨error, ran⟩ <;> rw [ran]
  · exact ⟨.refl, trivial⟩
  · exact .refl

end HookMachine
