import HookMachine.Proofs.Deeds.Activations
import HookMachine.Proofs.Deeds.Layers

/-!
Environments as overlays of the root. As long as the metatables are left as they were made and each
environment is written by its own code alone, a name reads as what was last written to it, or else as
what the root has under it.
-/

namespace HookMachine

variable {m middle : Machine} {e : TableRef} {log : List Point} {point : Point}

-----------------------------------------------------------------------------------------
-- What code of an environment writes
-----------------------------------------------------------------------------------------

/-- What code of an environment writes to it at a point, and under which key. -/
def Point.written? (point : Point) (e : TableRef) : Option (Value × Value) :=
  match point.mark with
  | .executes frame i =>
      if i.operation? = some .setGlobal ∧ frame.environment = e
          ∧ e ∈ point.machine.environments.overlays then
        match Vm.constant frame i.bx point.machine,
          Vm.execute (fun _ _ _ _ => pure []) frame .setGlobal i point.machine with
        | .ok key _, .ok _ _ => some (key, frame.read i.a)
        | _, _ => none
      else
        none
  | _ => none

/-- What code of an environment has written to it, the first of the writes first. -/
def writes (e : TableRef) (log : List Point) : List (Value × Value) :=
  log.filterMap (·.written? e)

theorem writes_concat (e : TableRef) (log : List Point) (point : Point)
    : writes e (log ++ [point]) = writes e log ++ (point.written? e).toList := by
  unfold writes
  rw [List.filterMap_append]
  cases written : point.written? e <;> simp [written]

/-- Code of an environment is about to write to it. -/
def Point.Assigns (point : Point) (e : TableRef) : Prop :=
  ∃ frame i, point.mark = .executes frame i ∧ i.operation? = some .setGlobal
    ∧ frame.environment = e

/-- Where code of an environment writes to it, that is all that is done up to the next point. -/
theorem Point.Assigns.heads (assigns : point.Assigns e) (layered : point.machine.Layered)
    (member : e ∈ point.machine.environments.overlays)
    : (point.written? e = none ∧ point.Heads point.machine)
      ∨ ∃ key value t, point.written? e = some (key, value) ∧ key.isNaN = false
        ∧ point.machine.heap.tables.get e.handle = .ok t ∧ t.readOnly = false
        ∧ point.Heads (point.machine.stored e key value) := by
  obtain ⟨frame, i, executes, operation, rfl⟩ := assigns
  obtain ⟨mark, m⟩ := point
  cases executes
  change m.Layered at layered
  change frame.environment ∈ m.environments.overlays at member
  have listed : i.operation? = some .setGlobal ∧ frame.environment = frame.environment
      ∧ frame.environment ∈ m.environments.overlays :=
    ⟨operation, rfl, member⟩
  have wrote := layered.setGlobal_eq frame member (fun _ _ _ _ => pure []) i
  have heads {outcome : EStateM.Result (Halt Fault) Machine Frame}
      (ran : (do
          let key ← Vm.constant { frame with pc := frame.pc + 1 } i.bx
          Vm.rawSet frame.environment key (frame.read i.a)
          return { frame with pc := frame.pc + 1 } : Vm Frame) m = outcome)
      : Heads ⟨.executes frame i, m⟩ outcome.last := by
    intro resume callers
    refine Plan.head_advance_of_ends ⟨frame, resume⟩ callers operation (by decide) ?_
    rw [← ran]
    exact layered.setGlobal_ends { frame with pc := frame.pc + 1 } member i
  have known {pc : Nat} {key : Value} (named : Vm.constant frame i.bx m = .ok key m)
      : Vm.constant { frame with pc } i.bx m = .ok key m :=
    let other : Frame := { frame with pc }
    Vm.constant_of_past (named : Vm.constant { other with pc := frame.pc } i.bx m = .ok key m)
  rcases (Vm.constant_looks frame i.bx).outcome m with ⟨key, named⟩ | ⟨fault, unnamed⟩
  · rcases Vm.rawSet_cases frame.environment key (frame.read i.a) m with
      ⟨fault, failed⟩ | ⟨done, admits, t, found, writable⟩
    · refine .inl ⟨?_, heads ((Run.bind_ok (known named)).trans (Run.bind_error failed))⟩
      refine (if_pos listed).trans ?_
      rw [wrote, named, Run.bind_ok named, Run.bind_error failed]
    · have number := (Vm.checkKey_ok (admits.checkKey)).2
      refine .inr ⟨key, frame.read i.a, t, ?_, number, found, writable,
        heads ((Run.bind_ok (known named)).trans (Run.bind_ok done))⟩
      refine (if_pos listed).trans ?_
      rw [wrote, named, Run.bind_ok named, Run.bind_ok done]
      rfl
  · have also : ∃ fault, Vm.constant { frame with pc := frame.pc + 1 } i.bx m
        = .error (.failed fault) m := by
      rcases (Vm.constant_looks { frame with pc := frame.pc + 1 } i.bx).outcome m with
        ⟨key, named⟩ | missing
      · cases (Vm.constant_of_past named).symm.trans unnamed
      · exact missing
    obtain ⟨fault', missing⟩ := also
    refine .inl ⟨?_, heads (Run.bind_error missing)⟩
    refine (if_pos listed).trans ?_
    rw [unnamed]

theorem Point.Assigns.of_written? {write : Value × Value} (written : point.written? e = some write)
    : point.Assigns e ∧ e ∈ point.machine.environments.overlays := by
  unfold written? at written
  split at written
  · rename_i frame i executes
    split at written
    · rename_i listed
      exact ⟨⟨frame, i, executes, listed.1, listed.2.1⟩, listed.2.2⟩
    · cases written
  · cases written

-----------------------------------------------------------------------------------------
-- Single points
-----------------------------------------------------------------------------------------

/-- A point leaves the metatables of the root and of the environments as they were made, and no
environment is written but by its own code.
-/
structure Point.Respects (point : Point) : Prop where
  layers : point.scope.Spares point.machine
  patch {e : TableRef} : e ∈ point.machine.environments.overlays → ¬point.Grants (.patch e)
  /-- What is done within an entry is told by the point that asks for it. -/
  write {e : TableRef} : e ∈ point.machine.environments.overlays → point.Grants (.write e)
    → point.mark = .entered ∨ point.Assigns e

/-- What points carry on with about environments: each has what its own code has written to it. -/
structure Machine.Overlaid (log : List Point) (m : Machine) : Prop where
  housed : m.Housed
  layered : m.Layered
  known : ∀ before ∈ log, before.machine.environments.overlays ⊆ m.environments.overlays
  /-- Only a lookup puts environments on record. -/
  last {earlier : List Point} {before : Point} : log = earlier ++ [before]
    → (∀ owner, ¬before.Seeks owner) → m.environments = before.machine.environments
  tables {e : TableRef} : e ∈ m.environments.overlays
    → ∃ t, m.heap.tables.get e.handle = .ok t ∧ t.Shows (writes e log)
  retains : m.Retains log

/-- A lookup grants that an environment goes on record, and nothing else does. -/
theorem Point.Grants.seeks (grants : point.Grants .record) : ∃ owner, point.Seeks owner := by
  cases grants with
  | performs performs grants =>
      cases grants with
      | shared => exact ⟨_, .shared performs⟩
      | script some => exact ⟨_, .script performs rfl some⟩
      | module some => exact ⟨_, .module performs rfl some⟩
  | asks asked grants =>
      cases grants with
      | environment => exact ⟨_, .asks asked⟩
      | load => exact ⟨_, .loads asked⟩
      | readShared => exact ⟨_, .reads asked⟩
  | stores _ _ _ writes | enters _ writes => cases writes

theorem Point.Requests.grants {deed : Deed} (requests : point.Requests deed) : point.Grants deed := by
  obtain ⟨request, asked, grants⟩ := requests
  exact .asks asked grants

/-- Who asks for anything else looks up no environment. -/
theorem Point.Requests.unsought {deed : Deed} (requests : point.Requests deed)
    (other : deed ≠ .record) (owner : EnvironmentOwner)
    : ¬point.Seeks owner := by
  obtain ⟨request, asked, grants⟩ := requests
  intro seeks
  cases seeks with
  | shared performs | script performs | module performs =>
      obtain ⟨-, n, -, passes⟩ := performs
      unfold Passes at passes
      rw [asked] at passes
      exact passes.elim
  | asks sought | loads sought | reads sought =>
      cases asked.symm.trans sought
      cases grants
      exact other rfl

/-- What a machine has of the environments of a point. -/
structure Point.Advances (point : Point) (m : Machine) : Prop where
  layered : m.Layered
  grown : point.machine.environments.overlays ⊆ m.environments.overlays
  last : (∀ owner, ¬point.Seeks owner) → m.environments = point.machine.environments
  kept {e : TableRef} {t : Table} {writes : List (Value × Value)}
    : e ∈ point.machine.environments.overlays → point.machine.heap.tables.get e.handle = .ok t
      → t.Shows writes
      → ∃ now, m.heap.tables.get e.handle = .ok now
          ∧ now.Shows (writes ++ (point.written? e).toList)
  fresh {e : TableRef} : e ∈ m.environments.overlays
    → e ∈ point.machine.environments.overlays
      ∨ (point.machine.heap.isLive (.table e) = false
        ∧ ∃ t, m.heap.tables.get e.handle = .ok t ∧ t.Shows [])

namespace Point

theorem Advances.refl (layered : point.machine.Layered) (unwritten : ∀ e, point.written? e = none)
    : point.Advances point.machine where
  layered := layered
  grown := List.Subset.refl _
  last _ := rfl
  kept _ found shown := by
    rw [unwritten, Option.toList_none, List.append_nil]
    exact ⟨_, found, shown⟩
  fresh member := .inl member

/-- What writes only into new tables leaves environments alone. -/
theorem Advances.leads (advances : point.Advances middle)
    (leads : Scope.Leads ⟨middle, fun _ => False⟩ middle m)
    : point.Advances m := by
  let idle : Scope := ⟨middle, fun _ => False⟩
  have same : m.environments = middle.environments := leads.unrecorded id
  have layered := advances.layered
  have fields {e : TableRef} {t : Table} {writes : List (Value × Value)}
      (found : middle.heap.tables.get e.handle = .ok t) (shown : t.Shows writes)
      : ∃ now, m.heap.tables.get e.handle = .ok now ∧ now.Shows writes := by
    have there : middle.heap.isLive (.table e) = true := Arena.contains_iff.mpr ⟨t, found⟩
    obtain ⟨now, held, array, hash⟩ := leads.fields there id id found
    exact ⟨now, held, shown.of_fields array hash⟩
  constructor
  case layered =>
    exact leads.layered layered (idle.spares_of_not (fun _ => id) middle) id rfl rfl layered
  case grown =>
    rw [same]
    exact advances.grown
  case last => exact fun unsought => same.trans (advances.last unsought)
  case kept =>
    intro e t writes member found shown
    obtain ⟨now, held, shown⟩ := advances.kept member found shown
    exact fields held shown
  case fresh =>
    intro e member
    rw [same] at member
    refine (advances.fresh member).imp_right fun ⟨absent, t, found, shown⟩ => ?_
    exact ⟨absent, fields found shown⟩

theorem Advances.beside (advances : point.Advances middle) (beside : middle.Beside m)
    : point.Advances m :=
  advances.leads (.single (.beside beside))

theorem written?_eq_none (other : ∀ frame i, point.mark ≠ .executes frame i) (e : TableRef)
    : point.written? e = none := by
  cases written : point.written? e with
  | none => rfl
  | some write =>
      obtain ⟨⟨frame, i, executes, -⟩, -⟩ := Assigns.of_written? written
      exact absurd executes (other frame i)

/-- Where an environment is looked up none is written. -/
theorem Seeks.not_assigns {owner : EnvironmentOwner} (seeks : point.Seeks owner)
    : ¬point.Assigns e := by
  rintro ⟨frame, i, executes, operation, -⟩
  have performed {f : ScriptFunction} {arguments : List Value}
      (performs : point.Performs f arguments)
      : False := by
    obtain ⟨-, n, -, passes⟩ := performs
    unfold Passes at passes
    rw [executes] at passes
    rcases passes.1 with call | call <;> cases operation.symm.trans call
  cases seeks with
  | shared performs | script performs | module performs => exact performed performs
  | asks asked | loads asked | reads asked => cases executes.symm.trans asked

theorem advances_collect {accounts : Accounts} (layered : point.machine.Layered)
    (balanced : accounts.Balanced point.machine) (asked : point.mark = .asks .collect)
    : point.Advances point.machine.collect.2 := by
  have same := point.machine.environments_collect
  have unwritten := point.written?_eq_none (fun _ _ executes => nomatch asked.symm.trans executes)
  constructor
  case layered => exact layered.collect balanced
  case grown =>
    rw [same]
    exact List.Subset.refl _
  case last => exact fun _ => same
  case kept =>
    intro e t writes member found shown
    obtain ⟨guard, listed, holds⟩ := EnvironmentCache.exists_guard_of_mem_overlays member
    obtain ⟨now, held, kept⟩ := point.machine.table_of_guard balanced listed holds found
    rw [unwritten, Option.toList_none, List.append_nil]
    refine ⟨now, held, shown.of_fields ?_ ?_⟩ <;> rw [kept]
  case fresh => exact fun member => .inl (same ▸ member)

/-- A lookup may make an environment, which is empty. -/
theorem Seeks.advances {owner : EnvironmentOwner} (seeks : point.Seeks owner)
    (layered : point.machine.Layered) (moves : point.Moves m)
    : point.Advances m := by
  have unwritten (e : TableRef) : point.written? e = none := by
    cases written : point.written? e with
    | none => rfl
    | some write => exact absurd (Assigns.of_written? written).1 seeks.not_assigns
  refine Advances.leads ?_ (seeks.leads moves)
  rcases Environment.find_brings layered owner with same | ⟨e, after, found, brings⟩
  · rw [same]
    exact .refl layered unwritten
  · rw [found]
    change point.Advances after
    constructor
    case layered => exact layered.of_brings brings
    case grown => exact fun other member => brings.overlays.mpr (.inr member)
    case last => exact fun unsought => absurd seeks (unsought owner)
    case kept =>
      intro other t writes _ held shown
      rw [unwritten, Option.toList_none, List.append_nil]
      exact ⟨t, brings.adds.tables held, shown⟩
    case fresh =>
      intro other member
      rcases brings.overlays.mp member with rfl | member
      · obtain ⟨mt, -, -, held⟩ := brings.base
        exact .inr ⟨brings.fresh, _, held, Table.shows_empty.of_fields rfl rfl⟩
      · exact .inl member

/-- Code of an environment writes to its own table alone. -/
theorem Assigns.advances (assigns : point.Assigns e) (layered : point.machine.Layered)
    (member : e ∈ point.machine.environments.overlays) (moves : point.Moves m)
    : point.Advances m := by
  have elsewhere {other : TableRef} (apart : other ≠ e) : point.written? other = none := by
    cases written : point.written? other with
    | none => rfl
    | some write =>
        obtain ⟨frame, i, executes, -, rfl⟩ := assigns
        obtain ⟨⟨frame', i', executes', -, rfl⟩, -⟩ := Assigns.of_written? written
        cases executes.symm.trans executes'
        exact absurd rfl apart
  have goes : point.Goes m := by
    refine moves.resolve_right fun collects => ?_
    obtain ⟨frame, i, executes, -⟩ := assigns
    cases collects.1.symm.trans executes
  rcases assigns.heads layered member with
    ⟨unwritten, heads⟩ | ⟨key, value, t, written, number, found, writable, heads⟩
  · refine Advances.beside (.refl layered fun other => ?_) (goes.heads _ heads).beside
    by_cases same : other = e
    · exact same ▸ unwritten
    · exact elsewhere same
  refine Advances.beside ?_ (goes.heads _ heads).beside
  constructor
  case layered => exact layered.stored found writable key value
  case grown => exact List.Subset.refl _
  case last => exact fun _ => rfl
  case kept =>
    intro other before writes known held shown
    by_cases same : other = e
    · subst same
      cases held.symm.trans found
      rw [written]
      exact ⟨_, Arena.get_modify.mpr ⟨t, found, (if_pos rfl).symm⟩, shown.set number value⟩
    · rw [elsewhere same, Option.toList_none, List.append_nil]
      exact ⟨before, (point.machine.get_stored_of_ne same key value).trans held, shown⟩
  case fresh => exact fun known => .inl known

/-- Where no environment is looked up or written by its code they stay as they are. -/
theorem Respects.advances (respects : point.Respects) (layered : point.machine.Layered)
    (unsought : ∀ owner, ¬point.Seeks owner)
    (unassigned : ∀ e ∈ point.machine.environments.overlays, ¬point.Assigns e)
    (goes : point.Goes m)
    (inside : point.mark = .entered → ∃ allows : Deed → Prop,
      Scope.Leads ⟨point.machine, allows⟩ point.machine m
        ∧ ∀ e ∈ point.machine.environments.overlays, ¬allows (.write e) ∧ ¬allows (.patch e))
    : point.Advances m := by
  obtain ⟨outset, set, leads⟩ := goes.comes
  have begins : outset.Layered ∧ outset.environments = point.machine.environments
      ∧ outset.globals = point.machine.globals
      ∧ outset.heap.tables = point.machine.heap.tables := by
    cases set with
    | plain => exact ⟨layered, rfl, rfl, rfl⟩
    | set =>
        exact ⟨⟨layered.minted, layered.root, layered.fallback, layered.overlay⟩, rfl, rfl, rfl⟩
  obtain ⟨begins, known, rooted, tables⟩ := begins
  have unrecorded : ¬point.Grants .record := fun grants =>
    have ⟨owner, seeks⟩ := grants.seeks
    unsought owner seeks
  have same : m.environments = point.machine.environments :=
    (leads.unrecorded unrecorded).trans known
  constructor
  case layered => exact leads.layered layered respects.layers unrecorded rooted known begins
  case grown =>
    rw [same]
    exact List.Subset.refl _
  case last => exact fun _ => same
  case kept =>
    intro e t writes member found shown
    have there := layered.live_overlay member
    have unwritten : point.written? e = none := by
      cases written : point.written? e with
      | none => rfl
      | some write => exact absurd (Assigns.of_written? written).1 (unassigned e member)
    rw [unwritten, Option.toList_none, List.append_nil]
    by_cases entered : point.mark = .entered
    · obtain ⟨allows, leads, none⟩ := inside entered
      obtain ⟨write, patch⟩ := none e member
      obtain ⟨now, kept, array, hash⟩ := leads.fields there write patch found
      exact ⟨now, kept, shown.of_fields array hash⟩
    · have write : ¬point.Grants (.write e) := fun grants =>
        (respects.write member grants).elim entered (unassigned e member)
      rw [← tables] at found
      obtain ⟨now, kept, array, hash⟩ := leads.fields there write (respects.patch member) found
      exact ⟨now, kept, shown.of_fields array hash⟩
  case fresh => exact fun member => .inl (same ▸ member)

end Point

namespace Machine.Overlaid

/-- At every point environments are layered over the root and have what their code has written. -/
theorem advances {accounts : Accounts} (overlaid : point.machine.Overlaid log)
    (balanced : accounts.Balanced point.machine) (respects : point.Respects)
    (earlier : ∀ before ∈ log, before.Respects) (moves : point.Moves m)
    (opened : point.Opened log m)
    : point.Advances m := by
  have layered := overlaid.layered
  by_cases sought : ∃ owner, point.Seeks owner
  · obtain ⟨owner, seeks⟩ := sought
    exact seeks.advances layered moves
  have unsought := not_exists.mp sought
  by_cases assigned : ∃ e, point.Assigns e ∧ e ∈ point.machine.environments.overlays
  · obtain ⟨e, assigns, member⟩ := assigned
    exact assigns.advances layered member moves
  have unassigned (e : TableRef) (member : e ∈ point.machine.environments.overlays)
      : ¬point.Assigns e :=
    fun assigns => assigned ⟨e, assigns, member⟩
  rcases moves with goes | ⟨asked, rfl⟩
  case inr => exact point.advances_collect layered balanced asked
  refine respects.advances layered unsought unassigned goes fun entered => ?_
  -- What is written within an entry was asked for, and whoever asks is no code of an environment.
  obtain ⟨before, asker, split, leads⟩ := opened entered
  refine ⟨_, leads, fun e member => ?_⟩
  have before := earlier asker (by simp [split])
  have known (deed : Deed) (requests : asker.Requests deed) (other : deed ≠ .record)
      : e ∈ asker.machine.environments.overlays := by
    rw [← overlaid.last split (requests.unsought other)]
    exact member
  constructor
  · intro requests
    have writes := before.write (known _ requests nofun) requests.grants
    obtain ⟨request, asked, -⟩ := requests
    rcases writes with entered | assigns
    · cases asked.symm.trans entered
    · obtain ⟨frame, i, executes, -⟩ := assigns
      cases asked.symm.trans executes
  · exact fun requests => before.patch (known _ requests nofun) requests.grants

/-- What points carry on with goes on at every point. -/
theorem step {accounts : Accounts} (overlaid : point.machine.Overlaid log)
    (balanced : accounts.Balanced point.machine) (respects : point.Respects)
    (earlier : ∀ before ∈ log, before.Respects) (moves : point.Moves m)
    (opened : point.Opened log m)
    : m.Overlaid (log ++ [point]) := by
  have advances := overlaid.advances balanced respects earlier moves opened
  constructor
  case housed => exact moves.housed balanced overlaid.housed
  case layered => exact advances.layered
  case known =>
    intro before member
    rcases List.mem_append.mp member with member | member
    · exact List.Subset.trans (overlaid.known before member) advances.grown
    · exact List.mem_singleton.mp member ▸ advances.grown
  case last =>
    intro others before split unsought
    obtain ⟨-, rfl⟩ := List.append_singleton_inj.mp split
    exact advances.last unsought
  case tables =>
    intro e member
    rw [writes_concat]
    rcases advances.fresh member with known | ⟨absent, t, found, shown⟩
    · obtain ⟨t, found, shown⟩ := overlaid.tables known
      exact advances.kept known found shown
    · -- A new environment was never on record, and so nothing was written to it.
      have unknown : e ∉ point.machine.environments.overlays := fun known =>
        Bool.false_ne_true (absent.symm.trans (overlaid.layered.live_overlay known))
      have unwritten {other : Point} (member : other ∈ log ++ [point]) : other.written? e = none := by
        cases written : other.written? e with
        | none => rfl
        | some write =>
            have known := (Point.Assigns.of_written? written).2
            rcases List.mem_append.mp member with member | member
            · exact absurd (overlaid.known other member known) unknown
            · exact absurd (List.mem_singleton.mp member ▸ known) unknown
      refine ⟨t, found, ?_⟩
      rw [← writes_concat]
      unfold writes
      rwa [List.filterMap_eq_nil_iff.mpr fun other member => unwritten member]
  case retains => exact overlaid.retains.step moves

/-- A new runtime has no environments yet, and its root has no metatable. -/
theorem create (heap : Nat) (config : Config) : (Machine.create heap config).Overlaid [] := by
  let bare := bare heap config
  have begins : bare.Layered := by
    let tables := (Heap.empty heap).tables
    refine ⟨tables.heap_insert {}, ⟨{}, tables.get_insert_self {}, rfl⟩, nofun, fun {e} member => ?_⟩
    cases member
  have leads := leads_create heap config
  have writes {deed : Deed} (other : ∀ ref, deed ≠ .write ref) : ¬(making heap config).allows deed :=
    fun ⟨ref, same⟩ => other ref same
  have spares : (making heap config).Spares bare :=
    ⟨writes nofun, fun _ => writes nofun, fun _ => writes nofun, fun _ => writes nofun⟩
  have none : (Machine.create heap config).environments = {} := leads.unrecorded (writes nofun)
  constructor
  case housed => exact (Recollects.create heap config).housed
  case layered => exact leads.layered begins spares (writes nofun) rfl rfl begins
  case known => exact fun before member => nomatch member
  case last => exact fun split => absurd split (by simp)
  case tables =>
    intro e member
    rw [none] at member
    cases member
  case retains => exact fun earlier first later split => absurd split (by simp)

end Machine.Overlaid

-----------------------------------------------------------------------------------------
-- Lives
-----------------------------------------------------------------------------------------

/-- What code of an environment finds under a key: what it has last written there, unless that was nil,
and else what the root has.
-/
def Machine.seen (m : Machine) (log : List Point) (e : TableRef) (key : Value) : Value :=
  .orNil (((Table.lastWrite? key (writes e log)).bind Table.present).or (m.rootField? key))

/-- What is known of environments and their code in a machine after the points of a log. -/
structure Machine.Isolates (log : List Point) (m : Machine) : Prop where
  reads {invoke frame i key} (known : frame.environment ∈ m.environments.overlays)
    (named : Vm.constant frame i.bx m = .ok key m)
    : Vm.execute invoke frame .getGlobal i m
      = .ok (frame.write i.a (m.seen log frame.environment key)) m
  /-- A write is to the table of the environment alone. -/
  writes {invoke frame i key t} (known : frame.environment ∈ m.environments.overlays)
    (named : Vm.constant frame i.bx m = .ok key m) (admits : m.Admits key (frame.read i.a))
    (found : m.heap.tables.get frame.environment.handle = .ok t) (writable : t.readOnly = false)
    : Vm.execute invoke frame .setGlobal i m
      = .ok frame (m.stored frame.environment key (frame.read i.a))
  /-- There is nothing else that a write comes to, unless it fails and changes nothing. -/
  fails {invoke frame i} (known : frame.environment ∈ m.environments.overlays)
    : (∃ fault, Vm.execute invoke frame .setGlobal i m = .error (.failed fault) m)
      ∨ ∃ key, Vm.execute invoke frame .setGlobal i m
        = .ok frame (m.stored frame.environment key (frame.read i.a))
  apart {e : TableRef} : e ∈ m.environments.overlays → e ≠ m.globals
  /-- Once nil is written the value of the root is found again. -/
  erases {invoke frame i key next after depth} (known : frame.environment ∈ m.environments.overlays)
    (named : Vm.constant frame i.bx m = .ok key m) (nothing : frame.read i.a = .nil)
    (wrote : Vm.execute invoke frame .setGlobal i m = .ok next after)
    : Vm.index invoke (.table frame.environment) key depth after
      = .ok (.orNil (m.rootField? key)) after
  /-- A closure that is loaded has the environment of its owner, which is on record. -/
  loads {owner prototype ref after} (ran : Environment.load owner prototype m = .ok ref after)
    : ∃ e found c, Environment.find owner m = .ok e found ∧ e ∈ after.environments.overlays
        ∧ after.heap.closures.get ref.handle = .ok c ∧ c.environment = e
  /-- A closure that code of an environment makes has the same environment. -/
  closes {invoke frame i next after} (ran : Vm.execute invoke frame .closure i m = .ok next after)
    : ∃ ref c, next.read i.a = .closure ref ∧ after.heap.closures.get ref.handle = .ok c
        ∧ c.environment = frame.environment
  retains : m.Retains log
  /-- Code of an environment is code of closures that had this environment. -/
  begun {earlier here later frame i} (split : log = earlier ++ here :: later)
    (executes : here.mark = .executes frame i)
    : Begun earlier frame

namespace Machine.Overlaid

variable (overlaid : m.Overlaid log)

include overlaid

/-- What an environment is read by is what its code has written, and else the root. -/
theorem index_eq (known : e ∈ m.environments.overlays) (invoke : Invoke) (key : Value)
    (depth : Nat)
    : Vm.index invoke (.table e) key depth m = .ok (m.seen log e key) m := by
  obtain ⟨t, found, shown⟩ := overlaid.tables known
  rw [overlaid.layered.index_eq known found, shown.get?]
  rfl

theorem setGlobal_cases {frame : Frame} (known : frame.environment ∈ m.environments.overlays)
    (invoke : Invoke) (i : Instruction)
    : (∃ fault, Vm.execute invoke frame .setGlobal i m = .error (.failed fault) m)
      ∨ ∃ key t, Vm.constant frame i.bx m = .ok key m ∧ m.Admits key (frame.read i.a)
        ∧ m.heap.tables.get frame.environment.handle = .ok t ∧ t.readOnly = false
        ∧ Vm.execute invoke frame .setGlobal i m
          = .ok frame (m.stored frame.environment key (frame.read i.a)) := by
  rw [overlaid.layered.setGlobal_eq _ known]
  rcases (Vm.constant_looks frame i.bx).outcome m with ⟨key, named⟩ | ⟨fault, unnamed⟩
  · rcases Vm.rawSet_cases frame.environment key (frame.read i.a) m with
      ⟨fault, failed⟩ | ⟨done, admits, t, found, writable⟩
    · exact .inl ⟨fault, (Run.bind_ok named).trans (Run.bind_error failed)⟩
    · exact .inr ⟨key, t, named, admits, found, writable,
        (Run.bind_ok named).trans (Run.bind_ok done)⟩
  · exact .inl ⟨fault, Run.bind_error unnamed⟩

/-- Where nil is written by code of an environment the root is read. -/
theorem index_erased (known : e ∈ m.environments.overlays) {t : Table}
    (found : m.heap.tables.get e.handle = .ok t) (writable : t.readOnly = false) {key : Value}
    (number : key.isNaN = false) (invoke : Invoke) (depth : Nat)
    : Vm.index invoke (.table e) key depth (m.stored e key .nil)
      = .ok (.orNil (m.rootField? key)) (m.stored e key .nil) := by
  obtain ⟨t', found', shown⟩ := overlaid.tables known
  cases found.symm.trans found'
  have layered := overlaid.layered.stored found writable key .nil
  have held : (m.stored e key .nil).heap.tables.get e.handle = .ok (t.set key .nil) :=
    Arena.get_modify.mpr ⟨t, found, (if_pos rfl).symm⟩
  have nothing : (t.set key .nil).get? key = none := by
    rw [(shown.set number .nil).get?, Table.lastWrite?_concat, Value.beq_self_iff.mpr number]
    rfl
  have root : (m.stored e key .nil).rootField? key = m.rootField? key := by
    have apart : m.globals ≠ e := Ne.symm (overlaid.layered.overlay known).1
    unfold rootField?
    change (((m.stored e key .nil).heap.tables.get m.globals.handle).toOption.bind _) = _
    rw [m.get_stored_of_ne apart]
  rw [layered.index_eq known held, nothing, Option.none_or, root]

theorem isolates (activates : Activates [] log) : m.Isolates log where
  reads {invoke frame i key} known named := by
    have read := overlaid.index_eq known invoke key frame.depth
    exact (Run.bind_ok named).trans (Run.bind_ok read)
  writes {invoke frame i key t} known named admits found writable := by
    rw [overlaid.layered.setGlobal_eq _ known]
    have wrote := Vm.rawSet_of_admits admits found writable
    exact (Run.bind_ok named).trans (Run.bind_ok wrote)
  fails {invoke frame i} known := by
    refine (overlaid.setGlobal_cases known invoke i).imp_right ?_
    rintro ⟨key, -, -, -, -, -, wrote⟩
    exact ⟨key, wrote⟩
  apart known := (overlaid.layered.overlay known).1
  erases {invoke frame i key next after depth} known named nothing wrote := by
    rcases overlaid.setGlobal_cases known invoke i with
      ⟨fault, failed⟩ | ⟨key', t, named', admits, found, writable, stored⟩
    · cases wrote.symm.trans failed
    · cases named.symm.trans named'
      cases wrote.symm.trans stored
      rw [nothing]
      exact overlaid.index_erased known found writable (Vm.checkKey_ok admits.checkKey).2 invoke depth
  loads {owner prototype ref after} ran := by
    obtain ⟨e, found, sought, made⟩ := Run.of_bind_ok ran
    have instantiated := Run.of_lift_ok made
    let s : Scope := ⟨found, fun _ => False⟩
    have kept := (Vm.instantiate_keeps (s := s) prototype (some e)).outcome found s.precedes_origin
    rw [instantiated] at kept
    have same : after.environments = found.environments := kept.1.unrecorded id
    obtain ⟨c, held, own⟩ := Vm.instantiate_makes instantiated
    refine ⟨e, found, c, sought, ?_, held, own⟩
    rw [same]
    exact Environment.mem_overlays_of_find sought
  closes := Vm.close_makes
  retains := overlaid.retains
  begun split executes := by
    subst split
    exact activates.begun executes

end Machine.Overlaid

/-- At a point nothing comes up but to assemble and load code, to call a closure, and for code to write to
the only environment there is.
-/
private def Point.isTame (point : Point) : Bool :=
  match point.mark with
  | .asks (.assemble _) | .asks (.load ..) | .failed _ | .answered .. | .left => true
  | .called call =>
      match Vm.resolve call.f point.machine with
      | .ok (.closure _) _ => true
      | _ => false
  | .executes frame i =>
      match i.operation? with
      | some .call | some .tailCall | some .setTable | some .setList => false
      | some .setGlobal =>
          point.machine.environments.overlays.all fun e => decide (e = frame.environment)
      | _ => true
  | _ => false

/-- What a tame point grants parts no environment from the root. -/
private theorem Point.respects_of_isTame {point : Point} (tame : point.isTame = true)
    : point.Respects := by
  have grants {deed : Deed} (grants : point.Grants deed)
      : deed = .record ∨ deed = .program ∨ ∃ ref, deed = .write ref
        ∧ ∃ frame i, point.mark = .executes frame i ∧ i.operation? = some .setGlobal := by
    unfold isTame at tame
    cases grants with
    | performs performs =>
        obtain ⟨-, n, -, passes⟩ := performs
        unfold Passes at passes
        cases mark : point.mark with
        | called call =>
            rw [mark] at tame passes
            obtain ⟨-, ⟨ref, after, resolved, -⟩, -⟩ := passes
            simp [resolved] at tame
        | executes frame i =>
            rw [mark] at tame passes
            rcases passes.1 with call | call <;> simp [call] at tame
        | failed | asks | answered | entered | left =>
            rw [mark] at passes
            exact passes.elim
    | @asks request asked grants =>
        rw [asked] at tame
        cases grants <;> first | exact .inl rfl | exact .inr (.inl rfl) | simp at tame
    | @stores frame i op ref executes operation stores writes =>
        rw [executes] at tame
        cases stores with
        | setGlobal => exact .inr (.inr ⟨ref, writes, frame, i, executes, operation⟩)
        | setTable | setList => simp [operation] at tame
    | enters entered =>
        rw [entered] at tame
        cases tame
  have none {deed : Deed} (other : deed ≠ .record ∧ deed ≠ .program ∧ ∀ ref, deed ≠ .write ref)
      : ¬point.Grants deed := by
    intro granted
    rcases grants granted with same | same | ⟨ref, same, -⟩
    · exact other.1 same
    · exact other.2.1 same
    · exact other.2.2 ref same
  refine ⟨⟨none (by simp), fun _ => none (by simp), fun _ => none (by simp), fun _ => none (by simp)⟩,
    fun _ => none (by simp), fun {e} member granted => .inr ?_⟩
  rcases grants granted with same | same | ⟨ref, -, frame, i, executes, operation⟩
  · cases same
  · cases same
  · refine ⟨frame, i, executes, operation, ?_⟩
    unfold isTame at tame
    rw [executes] at tame
    simp only [operation] at tame
    exact (of_decide_eq_true (List.all_eq_true.mp tame e member)).symm

namespace Machine

variable {config : Config} {accounts : Accounts}

theorem Interleaved.activates (life : Interleaved config log m) : Activates [] log := by
  induction life with
  | starts heap => trivial
  | session before context prototypes fuel program ih =>
      exact ih.andThen (.cons (by nofun) (.of_session fuel program _))

/-- Throughout the life of a runtime, as long as metatables are left as they were made and each
environment is written by its own code alone, environments are private overlays of the root. -/
theorem Logged.environments_overlay (life : Logged config accounts log m)
    : ((∀ point ∈ log, point.Respects) → m.Isolates log)
      ∧ ∀ earlier here later, log = earlier ++ here :: later
        → (∀ point ∈ earlier, point.Respects) → here.machine.Isolates earlier := by
  let P (log : List Point) (m : Machine) : Prop :=
    (∀ point ∈ log, ∃ accounts : Accounts, accounts.Balanced point.machine)
      → (∀ point ∈ log, point.Respects) → m.Overlaid log
  have starts (heap : Nat) : P [] (create heap config) := fun _ _ => .create heap config
  have turns {log : List Point} {m : Machine} (context : ContextRef) (prototypes : PrototypeStore)
      (held : P log m)
      : P log { m with context, prototypes } := by
    intro balanced respects
    obtain ⟨⟨held, distinct⟩, ⟨minted, root, fallback, overlay⟩, known, last, tables, retains⟩ :=
      held balanced respects
    exact ⟨⟨held, distinct⟩, ⟨minted, root, fallback, overlay⟩, known, last, tables, retains⟩
  have step (log : List Point) (point : Point) (m : Machine) (held : P log point.machine)
      (moves : point.Moves m) (opened : point.Opened log m)
      : P (log ++ [point]) m := by
    intro balanced respects
    obtain ⟨accounts, here⟩ := balanced point (by simp)
    have before (other : Point) (member : other ∈ log) : other.Respects :=
      respects other (by simp [member])
    have overlaid := held (fun other member => balanced other (by simp [member])) before
    exact overlaid.step here (respects point (by simp)) before moves opened
  have activates := life.interleaved.activates
  constructor
  · intro respects
    exact (life.interleaved.holds starts turns step life.balanced respects).isolates activates
  · rintro earlier here later rfl respects
    have balanced (point : Point) (member : point ∈ earlier) :=
      life.balanced point (List.mem_append_left _ member)
    have overlaid := life.interleaved.holds_at starts turns step rfl balanced respects
    exact overlaid.isolates activates.left

/-- A script writes a name twice to its environment, the second time nil, and reads it each time. -/
theorem Logged.environments_overlay_erased
    : ∃ (accounts : Accounts) (log : List Point) (m : Machine), Logged {} accounts log m
        ∧ (∀ point ∈ log, point.Respects) ∧ (∃ e, (writes e log).length = 2) ∧ m.Isolates log
        ∧ ∀ earlier here later, log = earlier ++ here :: later → here.machine.Isolates earlier := by
  let code : Prototype :=
    { constants := #[.number 1, .string "name"]
      code := #[.abx .loadK 0 0, .abx .setGlobal 0 1, .abx .getGlobal 1 1, .abx .setGlobal 2 1,
        .abx .getGlobal 3 1, .abc .ret 0 1 0] }
  let program : HostProgram :=
    .ask (.assemble code) fun
      | .error _ => .finish []
      | .ok ref =>
          .ask (.load (.script (.string "id")) ref) fun
            | .error _ => .finish []
            | .ok f => .call (.closure f) [] fun _ => .finish []
  let start : Machine := { create 1 {} with context := ⟨0⟩, prototypes := {} }
  have allows : Watch.accounts.Allows {} (program.trace 20 start) := by decide +kernel
  have tame : (⟨.left, start⟩ :: program.trace 20 start).all Point.isTame = true := by decide +kernel
  have wrote : (writes ⟨⟨1, 2, 0⟩⟩ (⟨.left, start⟩ :: program.trace 20 start)).length = 2 := by
    decide +kernel
  have begins : Logged {} {} [] (create 1 {}) := .created 1
  have life := begins.session ⟨0⟩ {} 20 program allows
  rw [List.nil_append] at life
  have respects : ∀ point ∈ ⟨.left, start⟩ :: program.trace 20 start, point.Respects :=
    fun point member => Point.respects_of_isTame (List.all_eq_true.mp tame point member)
  have overlay := life.environments_overlay
  exact ⟨_, _, _, life, respects, ⟨_, wrote⟩, overlay.1 respects, fun earlier here later split =>
    overlay.2 earlier here later split fun point member =>
      respects point (split ▸ List.mem_append_left _ member)⟩

end Machine
end HookMachine
