import HookMachine.Proofs.Arena.Upcoming
import HookMachine.Proofs.Deeds.Founding
import HookMachine.Proofs.Deeds.Protection
import HookMachine.Proofs.Table.FiniteMap

/-!
What environments being layered over the root comes to. As long as the metatables are left as they
were made, a name that an environment does not have is read in the root, and a name that is written is
written to the table of the environment itself.
-/

namespace HookMachine

variable {m middle after : Machine} {e ref mt root : TableRef}

-----------------------------------------------------------------------------------------
-- Single changes
-----------------------------------------------------------------------------------------

/-- Nothing is allowed that would part the environments of a machine from the root. -/
structure Scope.Spares (s : Scope) (m : Machine) : Prop where
  root : ¬s.allows (.attach m.globals)
  overlay {e : TableRef} : e ∈ m.environments.overlays → ¬s.allows (.attach e)
  shield {mt : TableRef} : m.Fallback mt → ¬s.allows (.shield mt false)
  patch {mt : TableRef} : m.Fallback mt → ¬s.allows (.patch mt)

/-- Where nothing is allowed environments are spared. -/
theorem Scope.spares_of_not (s : Scope) (none : ∀ deed, ¬s.allows deed) (m : Machine) : s.Spares m :=
  ⟨none _, fun _ => none _, fun _ => none _, fun _ => none _⟩

namespace Scope

variable {s : Scope} {before t : Table}

/-- The metatable of all environments is protected, and so it is not written. -/
theorem Turns.readsFrom (turns : s.Turns mt before t) (reads : before.ReadsFrom root)
    (shield : ¬s.allows (.shield mt false)) (patch : ¬s.allows (.patch mt))
    : t.ReadsFrom root := by
  have hash : t.hash = before.hash := by
    rcases turns.fields with same | ⟨writable, -⟩ | allowed
    · exact same.2
    · exact absurd (writable.symm.trans reads.readOnly) Bool.false_ne_true
    · exact absurd allowed patch
  refine ⟨?_, ?_, ?_⟩
  · exact (congrArg (Table.lookup _) hash).trans reads.index
  · exact (congrArg (Table.lookup _) hash).trans reads.newindex
  · rcases turns.readOnly with same | allowed
    · exact same.trans reads.readOnly
    · cases shut : t.readOnly with
      | true => rfl
      | false => exact absurd (shut ▸ allowed) shield

theorem Change.minted (change : s.Change m after) (minted : m.heap.tables.heap = m.heap.id)
    : after.heap.tables.heap = after.heap.id := by
  cases change with
  | beside beside => rw [beside.tables, beside.heap, minted]
  | made => exact (Arena.heap_insert ..).trans minted
  | written | patched | attached | shielded => exact (Arena.heap_modify ..).trans minted
  | founded | recorded | unhooked | hooked | programmed | observed => exact minted

/-- What spares the environments of a machine leaves them layered over the root. -/
theorem Change.layered (change : s.Change m after) (origin : s.origin.Layered)
    (spares : s.Spares s.origin) (globals : m.globals = s.origin.globals)
    (known : m.environments = s.origin.environments) (same : after.environments = m.environments)
    (layered : m.Layered)
    : after.Layered := by
  have rooted : after.globals = m.globals := change.fixed.globals
  have based {mt : TableRef} (shared : m.Fallback mt) : s.origin.Fallback mt := by
    obtain ⟨guard, found, holds⟩ := shared
    exact ⟨guard, known ▸ found, holds⟩
  constructor
  case minted => exact change.minted layered.minted
  case root =>
    obtain ⟨t, found, bare⟩ := layered.root
    obtain ⟨now, held, turns⟩ := change.turns found (globals ▸ origin.live_globals)
    rw [rooted]
    refine ⟨now, held, (turns.metatable.resolve_right ?_).trans bare⟩
    rw [globals]
    exact spares.root
  case fallback =>
    intro guard found
    rw [same] at found
    obtain ⟨mt, t, holds, held, reads⟩ := layered.fallback found
    have shared : m.Fallback mt := ⟨guard, found, holds⟩
    have there : s.origin.heap.isLive (.table mt) = true := by
      obtain ⟨mt', t, holds', held, -⟩ := origin.fallback (known ▸ found)
      cases holds.symm.trans holds'
      exact Arena.contains_iff.mpr ⟨t, held⟩
    obtain ⟨now, held, turns⟩ := change.turns held there
    rw [rooted]
    exact ⟨mt, now, holds, held,
      turns.readsFrom reads (spares.shield (based shared)) (spares.patch (based shared))⟩
  case overlay =>
    intro e member
    rw [same] at member
    obtain ⟨apart, mt, t, ⟨guard, found, holds⟩, held, attached⟩ := layered.overlay member
    rw [known] at member
    obtain ⟨now, held, turns⟩ := change.turns held (origin.live_overlay member)
    rw [rooted]
    exact ⟨apart, mt, now, ⟨guard, same ▸ found, holds⟩, held,
      (turns.metatable.resolve_right (spares.overlay member)).trans attached⟩

theorem Leads.unrecorded (leads : s.Leads m after) (record : ¬s.allows .record)
    : after.environments = m.environments := by
  refine Leads.environments (s := s) (leads.mono rfl fun deed allowed => ⟨allowed, ?_⟩)
  rintro rfl
  exact record allowed

/-- By induction over the changes. -/
theorem Leads.layered (leads : s.Leads m after) (origin : s.origin.Layered)
    (spares : s.Spares s.origin) (record : ¬s.allows .record)
    (globals : m.globals = s.origin.globals) (known : m.environments = s.origin.environments)
    (layered : m.Layered)
    : after.Layered := by
  induction leads with
  | refl => exact layered
  | tail leads change ih =>
      have first := Leads.unrecorded leads record
      have both := Leads.unrecorded (leads.tail change) record
      exact change.layered origin spares ((Leads.fixed leads).globals.trans globals)
        (first.trans known) (both.trans first.symm) ih

/-- The fields of a table that is not written are as they were. -/
theorem Leads.fields (leads : s.Leads m after) (there : s.origin.heap.isLive (.table ref) = true)
    (write : ¬s.allows (.write ref)) (patch : ¬s.allows (.patch ref))
    (found : m.heap.tables.get ref.handle = .ok before)
    : ∃ now, after.heap.tables.get ref.handle = .ok now ∧ now.array = before.array
        ∧ now.hash = before.hash := by
  induction leads with
  | refl => exact ⟨before, found, rfl, rfl⟩
  | tail _ change ih =>
      obtain ⟨t, held, array, hash⟩ := ih
      obtain ⟨now, held, turns⟩ := change.turns held there
      refine ⟨now, held, ?_⟩
      rcases turns.fields with same | ⟨-, allowed⟩ | allowed
      · exact ⟨same.1.trans array, same.2.trans hash⟩
      · exact absurd allowed write
      · exact absurd allowed patch

end Scope

-----------------------------------------------------------------------------------------
-- Reading and writing through an environment
-----------------------------------------------------------------------------------------

/-- What looks at the machine first ends as what follows it does. -/
theorem Plan.ends_look {α β : Type} {x : Vm α} {f : α → Plan β} {g : α → Vm β}
    (looks : Run.Looks x) (rest : ∀ a, x m = .ok a m → f a m = .ends (g a m))
    : ((liftM x : Plan α) >>= f) m = .ends ((x >>= g) m) := by
  change Course.bind (.ends (x m)) f = _
  rcases looks.outcome m with ⟨a, ran⟩ | ⟨error, ran⟩
  · rw [ran, Run.bind_ok ran]
    exact rest a ran
  · rw [ran, Run.bind_error ran]
    rfl

/-- The value that the root globals have under a key. -/
def Machine.rootField? (m : Machine) (key : Value) : Option Value :=
  (m.heap.tables.get m.globals.handle).toOption.bind (·.get? key)

/-- The machine after a key of a table is given a value. -/
def Machine.stored (m : Machine) (ref : TableRef) (key value : Value) : Machine :=
  { m with heap.tables := m.heap.tables.modify ref.handle (·.set key value) }

namespace Machine.Layered

variable (layered : m.Layered) (member : e ∈ m.environments.overlays) {t : Table}
  (found : m.heap.tables.get e.handle = .ok t)

include layered member found

/-- What the metatable of an environment says. -/
theorem handler_eq (name : String)
    : ∃ shared : Table, shared.ReadsFrom m.globals
        ∧ Vm.handler t name m = .ok (.orNil (shared.field? name)) m := by
  obtain ⟨-, mt, t', ⟨guard, known, holds⟩, held, attached⟩ := layered.overlay member
  obtain ⟨mt', shared, holds', based, reads⟩ := layered.fallback known
  cases held.symm.trans found
  cases holds.symm.trans holds'
  refine ⟨shared, reads, ?_⟩
  unfold Vm.handler
  rw [attached]
  exact Run.bind_ok (Vm.table_of_get based)

/-- What is not found in an environment is looked up in the root, and nowhere else. -/
theorem index_eq (invoke : Invoke) (key : Value) (depth : Nat)
    : Vm.index invoke (.table e) key depth m
      = .ok (.orNil ((t.get? key).or (m.rootField? key))) m := by
  obtain ⟨shared, reads, handled⟩ := layered.handler_eq member found "__index"
  obtain ⟨root, rooted, bare⟩ := layered.root
  have field : m.rootField? key = root.get? key := by
    unfold Machine.rootField?
    rw [rooted]
    rfl
  refine (Run.bind_ok (Vm.table_of_get found)).trans ?_
  cases here : t.get? key with
  | some value => rfl
  | none =>
      rw [reads.index] at handled
      refine (Run.bind_ok handled).trans ((Run.bind_ok (Vm.table_of_get rooted)).trans ?_)
      rw [Option.none_or, field]
      cases root.get? key with
      | some value => rfl
      | none =>
          unfold Vm.handler
          rw [bare]
          rfl

theorem writeHandler_eq (key : Value) : Vm.writeHandler t key m = .ok .nil m := by
  unfold Vm.writeHandler
  split
  · rfl
  · obtain ⟨shared, reads, handled⟩ := layered.handler_eq member found "__newindex"
    rw [handled, reads.newindex]
    rfl

omit found in
/-- What is written by way of an environment is written to its own table, like a raw write. -/
theorem assign_ends (key value : Value) (depth : Nat)
    : Plan.assign (.table e) key value depth m = .ends (Vm.rawSet e key value m) := by
  refine Plan.ends_look (Vm.checkKey_looks key) fun _ _ => ?_
  refine Plan.ends_look (Vm.checkOwner_looks value) fun _ _ => ?_
  refine Plan.ends_look (Vm.table_looks e) fun t looked => ?_
  have direct := layered.writeHandler_eq member (Vm.get_of_table looked) key
  refine (Plan.bind_of_ok direct _).trans ?_
  cases t.readOnly <;> rfl

end Machine.Layered

namespace Vm

variable {key value : Value} {t : Table}

/-- A key that passes its check passes it anywhere, and is equal to itself. -/
theorem checkKey_ok (passed : checkKey key m = .ok () after)
    : checkKey key = pure () ∧ key.isNaN = false := by
  cases key with
  | nil => cases passed
  | number x =>
      unfold checkKey at passed ⊢
      dsimp only at passed ⊢
      split at passed
      · cases passed
      · rename_i number
        rw [if_neg number]
        exact ⟨rfl, by simpa [Value.isNaN] using number⟩
  | _ => exact ⟨rfl, rfl⟩

theorem rawSet_of_admits (admits : m.Admits key value)
    (found : m.heap.tables.get ref.handle = .ok t) (writable : t.readOnly = false)
    : rawSet ref key value m = .ok () (m.stored ref key value) := by
  refine (Run.bind_ok admits.checkKey).trans ?_
  refine (Run.bind_ok (checkOwner_of_owns admits.value)).trans ?_
  refine (Run.bind_ok (table_of_get found)).trans ?_
  rw [writable]
  exact Run.bind_ok (table_of_get found)

/-- A raw write that is not admitted, or not to a table that may be written, changes nothing. -/
theorem rawSet_cases (ref : TableRef) (key value : Value) (m : Machine)
    : (∃ fault, rawSet ref key value m = .error (.failed fault) m)
      ∨ (rawSet ref key value m = .ok () (m.stored ref key value) ∧ m.Admits key value
        ∧ ∃ t, m.heap.tables.get ref.handle = .ok t ∧ t.readOnly = false) := by
  rcases (checkKey_looks key).outcome m with ⟨⟨⟩, named⟩ | ⟨fault, ran⟩
  case inr => exact .inl ⟨fault, Run.bind_error ran⟩
  cases owned : m.heap.owns value with
  | false =>
      left
      exact ⟨_, (Run.bind_ok named).trans (Run.bind_error (checkOwner_of_foreign owned))⟩
  | true =>
      have admits : m.Admits key value := ⟨(checkKey_ok named).1, owned⟩
      rcases found : m.heap.tables.get ref.handle with miss | t
      · left
        refine ⟨.ofMiss miss, (Run.bind_ok named).trans ?_⟩
        exact (Run.bind_ok (checkOwner_of_owns owned)).trans (Run.bind_error (table_of_miss found))
      · cases writable : t.readOnly with
        | true =>
            left
            refine ⟨.readOnly, (Run.bind_ok named).trans ?_⟩
            refine (Run.bind_ok (checkOwner_of_owns owned)).trans ?_
            refine (Run.bind_ok (table_of_get found)).trans ?_
            rw [writable]
            rfl
        | false => exact .inr ⟨rawSet_of_admits admits found writable, admits, t, rfl, writable⟩

end Vm

/-- A name that is written in an environment is written to its own table, like a raw write. -/
theorem Machine.Layered.setGlobal_ends (layered : m.Layered) (frame : Frame)
    (member : frame.environment ∈ m.environments.overlays) (i : Instruction)
    : Plan.execute frame .setGlobal i m
      = .ends ((do
          let key ← Vm.constant frame i.bx
          Vm.rawSet frame.environment key (frame.read i.a)
          return frame
          : Vm Frame) m) := by
  refine Plan.ends_look (Vm.constant_looks frame i.bx) fun key _ => ?_
  change Course.bind (Plan.assign _ _ _ _ m) _ = .ends (EStateM.bind _ _ m)
  rw [layered.assign_ends member]
  unfold EStateM.bind
  cases Vm.rawSet frame.environment key (frame.read i.a) m <;> rfl

theorem Machine.Layered.setGlobal_eq (layered : m.Layered) (frame : Frame)
    (member : frame.environment ∈ m.environments.overlays) (invoke : Invoke) (i : Instruction)
    : Vm.execute invoke frame .setGlobal i m
      = (do
          let key ← Vm.constant frame i.bx
          Vm.rawSet frame.environment key (frame.read i.a)
          return frame
          : Vm Frame) m := by
  rw [← Plan.run_execute]
  unfold Plan.run
  rw [layered.setGlobal_ends frame member]
  rfl

-----------------------------------------------------------------------------------------
-- Machines after a write
-----------------------------------------------------------------------------------------

/-- No other table is written. -/
theorem Machine.get_stored_of_ne {other : TableRef} (apart : other ≠ e) (m : Machine)
    (key value : Value)
    : (m.stored e key value).heap.tables.get other.handle = m.heap.tables.get other.handle := by
  have elsewhere : other.handle ≠ e.handle := fun same => apart (congrArg TableRef.mk same)
  change (m.heap.tables.modify _ _).get _ = _
  rw [Arena.get_modify_eq, if_neg elsewhere]

/-- A write to a table that is not protected leaves environments layered over the root. -/
theorem Machine.Layered.stored (layered : m.Layered) {t : Table}
    (found : m.heap.tables.get e.handle = .ok t) (writable : t.readOnly = false)
    (key value : Value)
    : (m.stored e key value).Layered := by
  let s : Scope := ⟨m, fun deed => deed = .write e⟩
  have written : s.Change m (m.stored e key value) :=
    .written found writable (Table.refills_set key value) (.inr rfl)
  have spares : s.Spares m := ⟨nofun, fun _ => nofun, fun _ => nofun, fun _ => nofun⟩
  exact Scope.Leads.layered (.single written) layered spares nofun rfl rfl layered

-----------------------------------------------------------------------------------------
-- Collections
-----------------------------------------------------------------------------------------

/-- What a guard of an environment holds has after a collection what it had. -/
theorem Machine.table_of_guard {accounts : Accounts} {guard : Guard} {t : Table}
    (balanced : accounts.Balanced m) (listed : guard ∈ m.environments.guards)
    (holds : guard.value = .table ref) (found : m.heap.tables.get ref.handle = .ok t)
    : ∃ now, m.collect.2.heap.tables.get ref.handle = .ok now
        ∧ now = { t with marked := now.marked } := by
  have anchored := m.anchored_of_guard balanced listed [.table m.globals]
  rw [holds] at anchored
  exact m.table_of_collect found (m.isLive_collect anchored rfl (Arena.contains_iff.mpr ⟨t, found⟩))

/-- A collection leaves environments as they are. -/
theorem Machine.Layered.collect {accounts : Accounts} (layered : m.Layered)
    (balanced : accounts.Balanced m)
    : m.collect.2.Layered := by
  have same := m.environments_collect
  have rooted : m.collect.2.globals = m.globals := by
    unfold Machine.collect
    split <;> rfl
  obtain ⟨root, found, bare⟩ := layered.root
  have anchored : .table m.globals ∈ m.heap.anchors [.table m.globals] :=
    List.mem_append_left _ (List.mem_singleton_self _)
  obtain ⟨now, kept, unchanged⟩ :=
    m.table_of_collect found (m.isLive_collect anchored rfl layered.live_globals)
  constructor
  case minted =>
    have heap := (Arena.heap_of_get kept).symm.trans (Arena.heap_of_get found)
    exact heap.trans (layered.minted.trans m.lasts_collect.heap.symm)
  case root =>
    rw [rooted]
    refine ⟨now, kept, ?_⟩
    rw [unchanged]
    exact bare
  case fallback =>
    intro guard known
    rw [same] at known
    obtain ⟨mt, t, holds, found, reads⟩ := layered.fallback known
    have listed : guard ∈ m.environments.guards := by
      unfold EnvironmentCache.guards
      simp [known]
    obtain ⟨now, kept, unchanged⟩ := m.table_of_guard balanced listed holds found
    rw [rooted]
    refine ⟨mt, now, holds, kept, ?_⟩
    rw [unchanged]
    exact ⟨reads.index, reads.newindex, reads.readOnly⟩
  case overlay =>
    intro e member
    rw [same] at member
    obtain ⟨apart, mt, t, ⟨guard, known, holds⟩, found, attached⟩ := layered.overlay member
    obtain ⟨own, listed, owns⟩ := EnvironmentCache.exists_guard_of_mem_overlays member
    obtain ⟨now, kept, unchanged⟩ := m.table_of_guard balanced listed owns found
    rw [rooted]
    refine ⟨apart, mt, now, ⟨guard, same ▸ known, holds⟩, kept, ?_⟩
    rw [unchanged]
    exact attached

-----------------------------------------------------------------------------------------
-- Tables as what is written to them
-----------------------------------------------------------------------------------------

namespace Table

variable {t now : Table} {writes : List (Value × Value)}

/-- A table reads as the last values of a list of writes. -/
structure Shows (t : Table) (writes : List (Value × Value)) : Prop where
  parted : t.Parted 1
  get? (key : Value) : t.get? key = (lastWrite? key writes).bind present

theorem shows_empty : ({} : Table).Shows [] := by
  have none : ∀ write ∈ ([] : List (Value × Value)), write.1.isNaN = false := nofun
  obtain ⟨parted, reads⟩ := ofWrites_reads none
  exact ⟨parted, reads⟩

/-- The fields are all that is read. -/
theorem Shows.of_fields (shown : t.Shows writes) (array : now.array = t.array)
    (hash : now.hash = t.hash)
    : now.Shows writes := by
  obtain ⟨⟨filled, bound, above, distinct, found, stored⟩, reads⟩ := shown
  refine ⟨?_, fun key => ?_⟩
  · rw [← array] at filled bound above
    rw [← hash] at above distinct found stored
    exact ⟨filled, bound, above, distinct, found, stored⟩
  · rw [← reads key]
    unfold Table.get?
    rw [array, hash]

/-- One more write is the last of its key. -/
theorem Shows.set (shown : t.Shows writes) {key : Value} (number : key.isNaN = false)
    (value : Value)
    : (t.set key value).Shows (writes ++ [(key, value)]) := by
  obtain ⟨parted, reads⟩ := shown.parted.set number value
  refine ⟨parted, fun a => (reads a).trans ?_⟩
  rw [shown.get?, lastWrite?_concat]
  cases key == a <;> rfl

end Table

end HookMachine
