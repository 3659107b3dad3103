import HookMachine.Proofs.Accounts.Sessions
import HookMachine.Proofs.Deeds.Interleaving
import HookMachine.Proofs.Table.Keys

/-!
Environments that last. An owner whose environment is on record has that environment ever after, no
other owner has it, and no collection takes it away. Only for a number that is not equal to itself a
new environment is made with every lookup.
-/

namespace HookMachine

variable {config : Config} {log : List Point} {m after : Machine} {owner other : EnvironmentOwner}
  {ref : TableRef}

-----------------------------------------------------------------------------------------
-- Owners
-----------------------------------------------------------------------------------------

namespace EnvironmentOwner

/-- Two owners are one: scripts find their identities equal. -/
def same : EnvironmentOwner → EnvironmentOwner → Bool
  | .runtime, .runtime => true
  | .script id, .script key | .module id, .module key => id == key
  | _, _ => false

/-- An owner that is not equal to itself. -/
def isNaN : EnvironmentOwner → Bool
  | .runtime => false
  | .script id | .module id => id.isNaN

theorem same_self_iff : owner.same owner = true ↔ owner.isNaN = false := by
  cases owner with
  | runtime => exact iff_of_true rfl rfl
  | script id | module id => exact Value.beq_self_iff

theorem same_symm (equal : owner.same other = true) : other.same owner = true := by
  cases owner <;> cases other <;> first | exact absurd equal Bool.false_ne_true | rfl | skip
  all_goals exact Value.beq_symm equal

theorem same_trans {third : EnvironmentOwner} (first : owner.same other = true)
    (second : other.same third = true)
    : owner.same third = true := by
  cases owner <;> cases other <;> first | exact absurd first Bool.false_ne_true | skip
  all_goals cases third <;> first | exact absurd second Bool.false_ne_true | rfl | skip
  all_goals exact Value.beq_trans first second

end EnvironmentOwner

namespace EnvironmentCache

variable {cache : EnvironmentCache} {guard : Guard}

/-- A list of environments with one more at its end, by induction over it. -/
theorem find?_concat (entries : List (Value × Guard)) (id key : Value) (guard : Guard)
    : ((entries ++ [(id, guard)]).find? fun entry => entry.1 == key).map (·.2)
      = ((entries.find? fun entry => entry.1 == key).map (·.2)).or
          (if id == key then some guard else none) := by
  rw [List.find?_append, Option.map_or]
  congr 1
  cases equal : id == key <;> simp [equal]

/-- An owner that is put on record is found, and whoever was found before still is. -/
theorem find?_insert (missing : cache.find? owner = none) (guard : Guard)
    (other : EnvironmentOwner)
    : (cache.insert guard owner).find? other
      = (cache.find? other).or (if owner.same other then some guard else none) := by
  cases owner <;> cases other
  case runtime.runtime =>
    change cache.shared = none at missing
    simp [find?, insert, missing, EnvironmentOwner.same]
  case script.script | module.module => exact find?_concat ..
  all_goals simp [find?, insert, EnvironmentOwner.same]

/-- Equal owners are found alike. -/
theorem find?_congr (equal : owner.same other = true)
    : cache.find? owner = cache.find? other := by
  have keys {id key : Value} (equal : (id == key) = true) (entries : List (Value × Guard))
      : entries.find? (fun entry => entry.1 == id) = entries.find? (fun entry => entry.1 == key) := by
    refine congrArg (List.find? · entries) (funext fun entry => Bool.eq_iff_iff.mpr ?_)
    exact ⟨(Value.beq_trans · equal), (Value.beq_trans · (Value.beq_symm equal))⟩
  cases owner <;> cases other <;> first | exact absurd equal Bool.false_ne_true | rfl | skip
  all_goals exact congrArg (Option.map _) (keys equal _)

/-- What is found is on record. -/
theorem mem_of_find? (found : cache.find? owner = some guard) : guard ∈ cache.guards := by
  unfold guards
  cases owner with
  | runtime =>
      change cache.shared = some guard at found
      simp [found]
  | script id | module id =>
      obtain ⟨entry, listed, rfl⟩ := Option.map_eq_some_iff.mp found
      have member := List.mem_of_find?_eq_some listed
      simp only [List.mem_append, List.mem_map]
      first
        | exact .inl (.inr ⟨entry, member, rfl⟩)
        | exact .inr ⟨entry, member, rfl⟩

/-- Whoever is found is equal to itself. -/
theorem isNaN_of_find? (found : cache.find? owner = some guard) : owner.isNaN = false := by
  cases owner with
  | runtime => rfl
  | script id | module id =>
      obtain ⟨entry, listed, -⟩ := Option.map_eq_some_iff.mp found
      have equal := List.find?_some (p := fun entry : Value × Guard => entry.1 == id) listed
      exact Value.beq_self_iff.mp (Value.beq_trans (Value.beq_symm equal) equal)

/-- Only the new guard comes on record. -/
theorem mem_guards_insert (missing : cache.find? owner = none) {one : Guard}
    : one ∈ (cache.insert guard owner).guards ↔ one = guard ∨ one ∈ cache.guards := by
  cases owner with
  | runtime =>
      change cache.shared = none at missing
      simp only [guards, insert, missing, List.mem_append, Option.toList_some, Option.toList_none,
        List.mem_singleton, List.not_mem_nil]
      tauto
  | script id | module id =>
      simp only [guards, insert, List.mem_append, List.map_append, List.map_cons, List.map_nil,
        List.mem_singleton]
      tauto

theorem mem_guards_founded (missing : cache.fallback = none) {one : Guard}
    : one ∈ { cache with fallback := some guard }.guards ↔ one = guard ∨ one ∈ cache.guards := by
  simp [guards, missing]

end EnvironmentCache

-----------------------------------------------------------------------------------------
-- Lookups
-----------------------------------------------------------------------------------------

namespace Machine

/-- The environment of an owner is on record. -/
def Denotes (m : Machine) (owner : EnvironmentOwner) (ref : TableRef) : Prop :=
  ∃ guard, m.environments.find? owner = some guard ∧ guard.value = .table ref

/-- The identity of an owner belongs to the heap. -/
def Owns (m : Machine) : EnvironmentOwner → Prop
  | .runtime => True
  | .script id | .module id => m.heap.owns id = true

/-- What lasts of the environments of a machine. -/
structure Lasts (m after : Machine) : Prop where
  heap : after.heap.id = m.heap.id
  found : ∀ owner guard, m.environments.find? owner = some guard
    → after.environments.find? owner = some guard
  guards : m.environments.guards ⊆ after.environments.guards

theorem Lasts.refl (m : Machine) : m.Lasts m :=
  ⟨rfl, fun _ _ => id, List.Subset.refl _⟩

theorem Lasts.trans {middle : Machine} (first : m.Lasts middle) (second : middle.Lasts after)
    : m.Lasts after where
  heap := second.heap.trans first.heap
  found owner guard known := second.found owner guard (first.found owner guard known)
  guards := List.Subset.trans first.guards second.guards

theorem Lasts.denotes (lasts : m.Lasts after) (denotes : m.Denotes owner ref)
    : after.Denotes owner ref := by
  obtain ⟨guard, found, holds⟩ := denotes
  exact ⟨guard, lasts.found owner guard found, holds⟩

theorem Lasts.owns (lasts : m.Lasts after) (owns : m.Owns owner) : after.Owns owner := by
  cases owner with
  | runtime => trivial
  | script id | module id => exact (Heap.owns_congr lasts.heap id).trans owns

end Machine

namespace Environment

theorem recorded_of_denotes (denotes : m.Denotes owner ref) : recorded owner m = .ok ref m := by
  obtain ⟨guard, found, holds⟩ := denotes
  unfold recorded
  rw [Run.bind_get, found]
  change tableOf guard m = _
  unfold tableOf
  rw [holds]
  rfl

/-- An environment on record is what a lookup comes to, and nothing is put on record. -/
theorem find_of_denotes (denotes : m.Denotes owner ref) (owns : m.Owns owner)
    : find owner m = .ok ref m := by
  cases owner with
  | runtime => exact recorded_of_denotes denotes
  | script id | module id =>
      have checked : (liftM (Vm.checkOwner id) : Action Unit) m = .ok () m :=
        Run.lift_ok (Vm.checkOwner_of_owns owns)
      exact (Run.bind_ok checked).trans (recorded_of_denotes denotes)

theorem tableOf_ok {guard : Guard} (ran : tableOf guard m = .ok ref after)
    : guard.value = .table ref ∧ after = m := by
  unfold tableOf at ran
  cases holds : guard.value with
  | table held =>
      rw [holds] at ran
      cases ran
      exact ⟨rfl, rfl⟩
  | _ =>
      rw [holds] at ran
      cases ran

/-- The machine in which an environment is made for an owner that has none on record. -/
structure Makes (m : Machine) (owner : EnvironmentOwner) (ref : TableRef) (after : Machine) : Prop where
  missing : m.environments.find? owner = none
  fresh : m.heap.isLive (.table ref) = false
  recorded : ∃ guard fallback, guard.value = .table ref
    ∧ after.environments = { m.environments with fallback }.insert guard owner

theorem recorded_cases (ran : recorded owner m = .ok ref after)
    : (after = m ∧ m.Denotes owner ref) ∨ Makes m owner ref after := by
  unfold recorded at ran
  rw [Run.bind_get] at ran
  cases known : m.environments.find? owner with
  | some guard =>
      rw [known] at ran
      obtain ⟨holds, rfl⟩ := tableOf_ok ran
      exact .inl ⟨rfl, guard, known, holds⟩
  | none =>
      rw [known] at ran
      let s : Scope := ⟨m, fun _ => True⟩
      have kept := create_kept (s := s) (m := m) trivial s.precedes_origin
      rcases made : create m with ⟨guard, middle⟩ | ⟨halt, middle⟩
      · rw [made] at kept
        obtain ⟨-, ⟨fallback, same⟩, held, holds, fresh, -⟩ := kept
        have tabled : tableOf guard { middle with
            environments := middle.environments.insert guard owner } = .ok ref after :=
          (Run.bind_ok made).symm.trans ran
        obtain ⟨also, rfl⟩ := tableOf_ok tabled
        cases holds.symm.trans also
        exact .inr ⟨known, fresh, guard, fallback, holds, congrArg (·.insert guard owner) same⟩
      · cases (Run.bind_error made).symm.trans ran

/-- A lookup comes to the environment on record, or makes one. -/
theorem find_cases (ran : find owner m = .ok ref after)
    : m.Owns owner ∧ ((after = m ∧ m.Denotes owner ref) ∨ Makes m owner ref after) := by
  have checked {id : Value}
      (ran : (do (Vm.checkOwner id : Vm Unit); recorded owner : Action TableRef) m = .ok ref after)
      : m.heap.owns id = true ∧ recorded owner m = .ok ref after := by
    cases owned : m.heap.owns id with
    | true =>
        have passed : (liftM (Vm.checkOwner id) : Action Unit) m = .ok () m :=
          Run.lift_ok (Vm.checkOwner_of_owns owned)
        exact ⟨rfl, (Run.bind_ok passed).symm.trans ran⟩
    | false =>
        have failed : (liftM (Vm.checkOwner id) : Action Unit) m
            = .error (.failed (.fault .foreignHandle)) m :=
          Run.lift_error (Vm.checkOwner_of_foreign owned)
        cases (Run.bind_error failed).symm.trans ran
  cases owner with
  | runtime => exact ⟨trivial, recorded_cases ran⟩
  | script id | module id =>
      obtain ⟨owned, ran⟩ := checked ran
      exact ⟨owned, recorded_cases ran⟩

theorem Makes.find? (makes : Makes m owner ref after) (other : EnvironmentOwner)
    : ∃ guard, guard.value = .table ref ∧ after.environments.find? other
      = (m.environments.find? other).or (if owner.same other then some guard else none) := by
  obtain ⟨guard, fallback, holds, same⟩ := makes.recorded
  have found (owner : EnvironmentOwner)
      : { m.environments with fallback }.find? owner = m.environments.find? owner := by
    cases owner <;> rfl
  refine ⟨guard, holds, ?_⟩
  rw [same, EnvironmentCache.find?_insert ((found owner).trans makes.missing), found]

/-- What a lookup comes to is on record after it, unless its owner is not equal to itself. -/
theorem denotes_of_find (ran : find owner m = .ok ref after) (equal : owner.isNaN = false)
    : after.Denotes owner ref := by
  rcases (find_cases ran).2 with ⟨rfl, denotes⟩ | makes
  · exact denotes
  · obtain ⟨guard, holds, found⟩ := makes.find? owner
    refine ⟨guard, ?_, holds⟩
    rw [found, makes.missing, EnvironmentOwner.same_self_iff.mpr equal]
    rfl

/-- Whose identity is not equal to itself is given one more environment with every lookup. -/
theorem find_of_isNaN (ran : find owner m = .ok ref after) (unequal : owner.isNaN = true)
    : m.heap.isLive (.table ref) = false ∧ after.environments.size = m.environments.size + 1 := by
  rcases (find_cases ran).2 with ⟨rfl, guard, found, -⟩ | makes
  · have equal := EnvironmentCache.isNaN_of_find? found
    exact absurd (equal.symm.trans unequal) Bool.false_ne_true
  · obtain ⟨guard, fallback, -, same⟩ := makes.recorded
    refine ⟨makes.fresh, ?_⟩
    rw [same]
    cases owner with
    | runtime => cases unequal
    | script id | module id =>
        simp only [EnvironmentCache.size, EnvironmentCache.insert, List.length_append,
          List.length_singleton]
        omega

end Environment

-----------------------------------------------------------------------------------------
-- Single changes
-----------------------------------------------------------------------------------------

/-- All environments on record are there, and none belongs to two owners. -/
structure Machine.Housed (m : Machine) : Prop where
  held : ∀ guard ∈ m.environments.guards,
    ∃ ref, guard.value = .table ref ∧ m.heap.isLive (.table ref) = true
  distinct : ∀ {owner other ref}, m.Denotes owner ref → m.Denotes other ref
    → owner.same other = true

theorem Machine.Housed.live (housed : m.Housed) (denotes : m.Denotes owner ref)
    : m.heap.isLive (.table ref) = true := by
  obtain ⟨guard, found, holds⟩ := denotes
  obtain ⟨held, same, live⟩ := housed.held guard (EnvironmentCache.mem_of_find? found)
  cases holds.symm.trans same
  exact live

namespace Scope

variable {s : Scope}

/-- Nothing that may happen takes an environment off the record. -/
theorem Change.lasts (change : s.Change m after) : m.Lasts after := by
  have same (heap : after.heap.id = m.heap.id) (same : after.environments = m.environments)
      : m.Lasts after :=
    ⟨heap, fun _ _ found => same ▸ found, same ▸ List.Subset.refl _⟩
  cases change with
  | beside beside => exact same beside.heap beside.environments
  | @founded guard ref allowed missing =>
      refine ⟨rfl, fun owner guard found => ?_, fun one listed => ?_⟩
      · cases owner <;> exact found
      · exact (EnvironmentCache.mem_guards_founded missing).mpr (.inr listed)
  | recorded _ _ missing =>
      refine ⟨rfl, fun other one found => ?_, fun one listed => ?_⟩
      · rw [EnvironmentCache.find?_insert missing, found]
        rfl
      · exact (EnvironmentCache.mem_guards_insert missing).mpr (.inr listed)
  | _ => exact same rfl rfl

theorem Leads.lasts (leads : s.Leads m after) : m.Lasts after := by
  induction leads with
  | refl => exact .refl m
  | tail _ change ih => exact ih.trans change.lasts

/-- What is put on record is there and belongs to nobody else, for it was not there before. -/
theorem Change.housed (change : s.Change m after) (origin : s.origin.Housed) (housed : m.Housed)
    : after.Housed := by
  have same (same : after.environments = m.environments) : after.Housed := by
    refine ⟨fun guard listed => ?_, fun {owner other ref} first second => ?_⟩
    · obtain ⟨ref, holds, live⟩ := housed.held guard (same ▸ listed)
      exact ⟨ref, holds, change.live live⟩
    · unfold Machine.Denotes at first second
      rw [same] at first second
      exact housed.distinct first second
  cases change with
  | beside beside => exact same beside.environments
  | @founded guard ref allowed missing holds live =>
      have found (owner : EnvironmentOwner) (ref : TableRef)
          (denotes : Machine.Denotes { m with environments.fallback := some guard } owner ref)
          : m.Denotes owner ref := by
        cases owner <;> exact denotes
      refine ⟨fun one listed => ?_, fun first second =>
        housed.distinct (found _ _ first) (found _ _ second)⟩
      rcases (EnvironmentCache.mem_guards_founded missing).mp listed with rfl | listed
      · exact ⟨ref, holds, live⟩
      · exact housed.held one listed
  | @recorded guard owner ref allowed known missing holds fresh live =>
      -- An environment that was on record before cannot be the new one.
      have apart (other : EnvironmentOwner) (denotes : m.Denotes other ref) : False := by
        obtain ⟨guard, found, same⟩ := denotes
        have live := origin.live ⟨guard, (known other).symm.trans found, same⟩
        exact Bool.false_ne_true (fresh.symm.trans live)
      have cases_ (other : EnvironmentOwner) (held : TableRef)
          (denotes : Machine.Denotes { m with
            environments := m.environments.insert guard owner } other held)
          : m.Denotes other held ∨ (owner.same other = true ∧ held = ref) := by
        obtain ⟨one, found, same⟩ := denotes
        rw [EnvironmentCache.find?_insert missing] at found
        rcases Option.or_eq_some_iff.mp found with found | ⟨-, found⟩
        · exact .inl ⟨one, found, same⟩
        · split at found
          · rename_i equal
            cases found
            cases same.symm.trans holds
            exact .inr ⟨equal, rfl⟩
          · cases found
      refine ⟨fun one listed => ?_, fun {first second held} left right => ?_⟩
      · rcases (EnvironmentCache.mem_guards_insert missing).mp listed with rfl | listed
        · exact ⟨ref, holds, live⟩
        · exact housed.held one listed
      · rcases cases_ first held left with left | ⟨left, rfl⟩
        · rcases cases_ second held right with right | ⟨right, rfl⟩
          · exact housed.distinct left right
          · exact (apart first left).elim
        · rcases cases_ second held right with right | ⟨right, -⟩
          · exact (apart second right).elim
          · exact EnvironmentOwner.same_trans (EnvironmentOwner.same_symm left) right
  | _ => exact same rfl

theorem Leads.housed (leads : s.Leads m after) (origin : s.origin.Housed) (housed : m.Housed)
    : after.Housed := by
  induction leads with
  | refl => exact housed
  | tail _ change ih => exact change.housed origin ih

end Scope

-----------------------------------------------------------------------------------------
-- Collections
-----------------------------------------------------------------------------------------

namespace Heap

variable {heap : Heap} {around : Surroundings} {gray roots : List Value} {object : ObjectRef}

/-- Marking takes no mark off, by induction over its rounds. -/
theorem isMarked_markAll_of_isMarked (marked : heap.isMarked object = true)
    : (heap.markAll around gray).isMarked object = true := by
  fun_induction Heap.markAll around heap gray with
  | case1 heap => exact marked
  | case2 heap idle gray plain ih => exact ih marked
  | case3 heap white gray reached names fresh ih => exact ih (isMarked_mark.mpr (.inl marked))
  | case4 heap idle gray reached names done ih => exact ih marked

/-- What waits to be marked is marked in the end, by induction over the rounds of marking. -/
theorem isMarked_markAll_of_waiting {value : Value} (waiting : value ∈ gray)
    (names : value.object? = some object) (live : heap.isLive object = true)
    : (heap.markAll around gray).isMarked object = true := by
  fun_induction Heap.markAll around heap gray with
  | case1 heap => cases waiting
  | case2 heap idle gray plain ih =>
      rcases List.mem_cons.mp waiting with rfl | waiting
      · cases names.symm.trans plain
      · exact ih waiting live
  | case3 heap white gray reached reached_names fresh ih =>
      rcases List.mem_cons.mp waiting with rfl | waiting
      · cases names.symm.trans reached_names
        exact isMarked_markAll_of_isMarked (isMarked_mark.mpr (.inr ⟨rfl, live⟩))
      · exact ih (List.mem_append_right _ waiting) ((isLive_mark ..).trans live)
  | case4 heap idle gray reached reached_names done ih =>
      rcases List.mem_cons.mp waiting with rfl | waiting
      · cases names.symm.trans reached_names
        have marked : heap.isMarked object = true := by
          by_contra white
          exact done ⟨live, white⟩
        exact isMarked_markAll_of_isMarked marked
      · exact ih waiting live

/-- An object from which marking sets out survives the collection. -/
theorem isLive_collect_of_anchored {value : Value} (anchored : value ∈ heap.anchors roots)
    (names : value.object? = some object) (live : heap.isLive object = true)
    : (heap.collect around roots).2.isLive object = true := by
  have marked : (heap.markAll around (heap.anchors roots)).isMarked object = true :=
    isMarked_markAll_of_waiting anchored names live
  have wiped := clearMarks_markAll around heap (heap.anchors roots)
  rw [← isLive_clearMarks] at live
  cases object with
  | table ref =>
      obtain ⟨t, found⟩ := Arena.contains_iff.mp live
      have wiped := congrArg Heap.tables wiped
      exact Arena.contains_iff.mpr ⟨t, (Arena.get_map_retain wiped).mpr ⟨found, marked⟩⟩
  | closure ref =>
      obtain ⟨c, found⟩ := Arena.contains_iff.mp live
      have wiped := congrArg Heap.closures wiped
      exact Arena.contains_iff.mpr ⟨c, (Arena.get_map_retain wiped).mpr ⟨found, marked⟩⟩
  | native ref =>
      obtain ⟨n, found⟩ := Arena.contains_iff.mp live
      have wiped := congrArg Heap.natives wiped
      exact Arena.contains_iff.mpr ⟨n, (Arena.get_map_retain wiped).mpr ⟨found, marked⟩⟩

end Heap

theorem Machine.lasts_collect (m : Machine) : m.Lasts m.collect.2 := by
  unfold collect
  split
  · exact .refl m
  · exact ⟨Heap.id_collect .., fun _ _ found => found, List.Subset.refl _⟩

/-- Marking sets out from what is retained. -/
theorem Machine.anchored_of_retained {slot : Handle} {value : Value}
    (retained : m.heap.retained.get slot = .ok value) (roots : List Value)
    : value ∈ m.heap.anchors roots :=
  List.mem_append_right _ (List.mem_map.mpr ⟨(slot, value), Arena.mem_toList.mpr retained, rfl⟩)

/-- Environments are retained, and so marking sets out from them. -/
theorem Machine.anchored_of_guard {accounts : Accounts} {guard : Guard}
    (balanced : accounts.Balanced m) (listed : guard ∈ m.environments.guards) (roots : List Value)
    : guard.value ∈ m.heap.anchors roots := by
  have registered : guard ∈ m.registered :=
    List.mem_append_left _ (List.mem_append_left _ listed)
  exact m.anchored_of_retained (balanced.get (List.mem_append_right _ registered)) roots

theorem Machine.isLive_collect {value : Value} {object : ObjectRef}
    (anchored : value ∈ m.heap.anchors [.table m.globals]) (names : value.object? = some object)
    (live : m.heap.isLive object = true)
    : m.collect.2.heap.isLive object = true := by
  unfold collect
  split
  · exact live
  · exact Heap.isLive_collect_of_anchored anchored names live

theorem Machine.environments_collect (m : Machine)
    : m.collect.2.environments = m.environments := by
  unfold collect
  split <;> rfl

/-- No collection takes an environment away. -/
theorem Machine.Housed.collect {accounts : Accounts} (housed : m.Housed)
    (balanced : accounts.Balanced m)
    : m.collect.2.Housed := by
  have same := m.environments_collect
  refine ⟨fun guard listed => ?_, fun {owner other ref} first second => ?_⟩
  · rw [same] at listed
    obtain ⟨ref, holds, live⟩ := housed.held guard listed
    have anchored := m.anchored_of_guard balanced listed [.table m.globals]
    rw [holds] at anchored
    exact ⟨ref, holds, m.isLive_collect anchored rfl live⟩
  · unfold Denotes at first second
    rw [same] at first second
    exact housed.distinct first second

-----------------------------------------------------------------------------------------
-- Points at which an environment is looked up
-----------------------------------------------------------------------------------------

namespace Point

/-- The environment of an owner is looked up at a point, by a script or by a host. -/
inductive Seeks (point : Point) : EnvironmentOwner → Prop
  | shared {arguments} (performs : point.Performs .getGlobalEnv arguments) : point.Seeks .runtime
  | script {arguments id} (performs : point.Performs .getScriptEnv arguments)
    (given : Script.argument arguments 0 = id) (some : id ≠ .nil) : point.Seeks (.script id)
  | module {arguments id} (performs : point.Performs .getModuleEnv arguments)
    (given : Script.argument arguments 0 = id) (some : id ≠ .nil) : point.Seeks (.module id)
  | asks {whose : EnvironmentOwner} (asked : point.mark = .asks (.environment whose))
    : point.Seeks whose
  | loads {whose : EnvironmentOwner} {prototype} (asked : point.mark = .asks (.load whose prototype))
    : point.Seeks whose
  | reads {name} (asked : point.mark = .asks (.readShared name)) : point.Seeks .runtime

/-- A lookup at a point comes to an environment, in the machine `after`. -/
structure Finds (point : Point) (owner : EnvironmentOwner) (ref : TableRef) (after : Machine)
    : Prop where
  seeks : point.Seeks owner
  found : Environment.find owner point.machine = .ok ref after

theorem required_of_ne {arguments : List Value} {i : Nat} {what : String} {id : Value}
    (given : Script.argument arguments i = id) (some : id ≠ .nil)
    : Script.required arguments i what = pure id := by
  unfold Script.required
  rw [given]
  cases id <;> first | exact absurd rfl some | rfl

/-- Up to the next point nothing that shows in environments is done at a point after the lookup. -/
theorem Seeks.leads {point : Point} {next : Machine} (seeks : point.Seeks owner)
    (moves : point.Moves next)
    : Scope.Leads ⟨(Environment.find owner point.machine).last, fun _ => False⟩
        (Environment.find owner point.machine).last next := by
  have apart (other : point.mark ≠ .asks .collect) : point.Goes next :=
    moves.resolve_right fun collects => other collects.1
  have single {first : Machine} (beside : first.Beside next)
      : Scope.Leads ⟨first, fun _ => False⟩ first next :=
    .single (.beside beside)
  have performed {f : ScriptFunction} {arguments : List Value}
      (performs : point.Performs f arguments) (quiet : f ≠ .fireSignal)
      (last : ∀ caller, (Script.run Plan.noCall caller f arguments point.machine).last
        = (Environment.find owner point.machine).last)
      : (Environment.find owner point.machine).last.Beside next := by
    obtain ⟨caller, heads⟩ := performs.heads quiet
    refine (last caller) ▸ ((apart ?_).heads _ heads).beside
    intro asked
    obtain ⟨-, n, -, passes⟩ := performs
    unfold Passes at passes
    rw [asked] at passes
    exact passes.elim
  have wrapped : ((do return [.table (← Environment.find owner)] : Action (List Value))
      point.machine).last = (Environment.find owner point.machine).last := by
    change (EStateM.bind _ _ _).last = _
    unfold EStateM.bind
    cases Environment.find owner point.machine <;> rfl
  obtain ⟨mark, m⟩ := point
  cases seeks with
  | shared performs => exact single (performed performs nofun fun _ => wrapped)
  | script performs given some | module performs given some =>
      refine single (performed performs nofun fun _ => ?_)
      unfold Script.run
      dsimp only
      rw [required_of_ne given some, pure_bind]
      exact wrapped
  | asks asked =>
      cases asked
      exact single ((apart nofun).heads _ rfl).beside
  | @loads _ prototype asked =>
      cases asked
      have beside := ((apart nofun).heads _ rfl).beside
      change (Environment.load owner prototype m).last.Beside next at beside
      rcases found : Environment.find owner m with ⟨ref, after⟩ | ⟨halt, after⟩
      · have loads : Environment.load owner prototype m
            = (liftM (Vm.instantiate prototype (some ref)) : Action ClosureRef) after :=
          Run.bind_ok found
        rw [loads] at beside
        let s : Scope := ⟨after, fun _ => False⟩
        have made : s.Keeps (liftM (Vm.instantiate prototype (some ref)) : Action ClosureRef) :=
          (Vm.instantiate_keeps _ _).lift
        have kept := made.outcome after s.precedes_origin
        generalize (liftM (Vm.instantiate prototype (some ref)) : Action ClosureRef) after = outcome
          at kept beside
        cases outcome with
        | ok closure last => exact kept.1.tail (.beside beside)
        | error halt last => exact Relation.ReflTransGen.tail kept (.beside beside)
      · have fails : Environment.load owner prototype m = .error halt after := Run.bind_error found
        rw [fails] at beside
        exact single beside
  | @reads name asked =>
      cases asked
      refine single (Machine.Near.beside ((apart nofun).heads _ ?_))
      change (Request.errand (.readShared name) m).head = _
      unfold Request.errand
      dsimp only
      rcases Environment.find .runtime m with ⟨ref, after⟩ | ⟨halt, after⟩ <;> rfl

/-- A lookup shows at the next point. -/
theorem Finds.lasts {point : Point} (finds : point.Finds owner ref after) {next : Machine}
    (moves : point.Moves next)
    : after.Lasts next := by
  have leads := finds.seeks.leads moves
  rw [finds.found] at leads
  exact leads.lasts

/-- What is on record at a point is at the next. -/
theorem Moves.lasts {point : Point} {next : Machine} (moves : point.Moves next)
    : point.machine.Lasts next := by
  rcases moves with ⟨⟨outset, set, leads⟩, -⟩ | ⟨-, rfl⟩
  · have begins : point.machine.Lasts outset := by
      cases set <;> exact ⟨rfl, fun _ _ => id, List.Subset.refl _⟩
    exact begins.trans leads.lasts
  · exact point.machine.lasts_collect

theorem Moves.housed {point : Point} {next : Machine} {accounts : Accounts}
    (moves : point.Moves next) (balanced : accounts.Balanced point.machine)
    (housed : point.machine.Housed)
    : next.Housed := by
  rcases moves with ⟨⟨outset, set, leads⟩, -⟩ | ⟨-, rfl⟩
  · have begins : outset.Housed := by cases set <;> exact ⟨housed.held, housed.distinct⟩
    exact leads.housed housed begins
  · exact housed.collect balanced

end Point

-----------------------------------------------------------------------------------------
-- Lives
-----------------------------------------------------------------------------------------

/-- A runtime after sessions of any contexts, with the points that they came by and what is retained
and not given back.
-/
inductive Machine.Logged (config : Config) : Accounts → List Point → Machine → Prop
  | created (heap : Nat) : Logged config {} [] (create heap config)
  | session {accounts : Accounts} {log : List Point} {m : Machine}
    (before : Logged config accounts log m) (context : ContextRef) (prototypes : PrototypeStore)
    (fuel : Nat) (program : HostProgram)
    (allows : Watch.accounts.Allows accounts (program.trace fuel { m with context, prototypes }))
    : Logged config (Watch.accounts.noted accounts (program.trace fuel { m with context, prototypes }))
        (log ++ ⟨.left, { m with context, prototypes }⟩
          :: program.trace fuel { m with context, prototypes })
        ((Plan.program none 0 program).run (Vm.call fuel) { m with context, prototypes }).last

namespace Machine.Logged

variable {accounts : Accounts}

theorem interleaved (life : Logged config accounts log m) : Interleaved config log m := by
  induction life with
  | created heap => exact .starts heap
  | session _ context prototypes fuel program _ ih => exact .session ih context prototypes fuel program

theorem lived (life : Logged config accounts log m) : Lived accounts m := by
  induction life with
  | created heap => exact .created heap config
  | session _ context prototypes fuel program allows ih =>
      exact .session ((ih.switched context).shared prototypes) fuel program allows

/-- Accounts are balanced at every point, by induction over the sessions. -/
theorem balanced (life : Logged config accounts log m)
    : ∀ point ∈ log, ∃ accounts : Accounts, accounts.Balanced point.machine := by
  induction life with
  | created heap => simp
  | @session accounts log m before context prototypes fuel program allows ih =>
      have begins := ((before.lived.switched context).shared prototypes).balanced
      intro point member
      rcases List.mem_append.mp member with earlier | inside
      · exact ih point earlier
      · rcases List.mem_cons.mp inside with rfl | inside
        · exact ⟨accounts, begins⟩
        · obtain ⟨earlier, later, split⟩ := List.append_of_mem inside
          exact ⟨_, (begins.session fuel program allows).1 earlier point later split⟩

end Machine.Logged

/-- What is known of environments in a machine after the points of a log. -/
structure Machine.Settled (log : List Point) (m : Machine) : Prop where
  /-- What a lookup has come to every lookup comes to, and nothing more goes on record. -/
  again {first : Point} {owner other : EnvironmentOwner} {ref : TableRef} {after : Machine}
    : first ∈ log → first.Finds owner ref after → owner.same other = true
      → Environment.find other m = .ok ref m
  distinct {first second : Point} {owner other : EnvironmentOwner} {ref : TableRef}
    {after last : Machine}
    : first ∈ log → second ∈ log → first.Finds owner ref after → second.Finds other ref last
      → owner.isNaN = false → other.isNaN = false → owner.same other = true
  /-- Environments and their metatable are there, and stay on record. -/
  held : ∀ guard ∈ m.environments.guards,
    ∃ ref, guard.value = .table ref ∧ m.heap.isLive (.table ref) = true
  kept : ∀ first ∈ log, first.machine.environments.guards ⊆ m.environments.guards
  /-- A number that is not equal to itself is given a new environment, and that goes on record. -/
  anew {owner : EnvironmentOwner} {ref : TableRef} {after : Machine}
    : owner.isNaN = true → Environment.find owner m = .ok ref after
      → m.heap.isLive (.table ref) = false ∧ after.environments.size = m.environments.size + 1

/-- What points carry on with about environments. -/
structure Machine.Recollects (log : List Point) (m : Machine) : Prop where
  housed : m.Housed
  found : ∀ first ∈ log, ∀ owner ref after, first.Finds owner ref after → after.Lasts m
  lasts : ∀ first ∈ log, first.machine.Lasts m

namespace Machine.Recollects

theorem create (heap : Nat) (config : Config) : (Machine.create heap config).Recollects [] := by
  have empty : (bare heap config).environments = {} := rfl
  have begins : (bare heap config).Housed := by
    refine ⟨fun guard listed => ?_, fun {owner other ref} first _ => ?_⟩
    · rw [empty] at listed
      cases listed
    · obtain ⟨guard, found, -⟩ := first
      rw [empty] at found
      cases owner <;> cases found
  have leads := leads_create heap config
  exact ⟨leads.housed begins begins, fun _ member => (List.not_mem_nil member).elim,
    fun _ member => (List.not_mem_nil member).elim⟩

theorem step {point : Point} {accounts : Accounts} (recollects : point.machine.Recollects log)
    (balanced : accounts.Balanced point.machine) (moves : point.Moves m)
    : m.Recollects (log ++ [point]) where
  housed := moves.housed balanced recollects.housed
  found first member owner ref after finds := by
    rcases List.mem_append.mp member with member | member
    · exact (recollects.found first member owner ref after finds).trans moves.lasts
    · cases List.mem_singleton.mp member
      exact finds.lasts moves
  lasts first member := by
    rcases List.mem_append.mp member with member | member
    · exact (recollects.lasts first member).trans moves.lasts
    · exact List.mem_singleton.mp member ▸ moves.lasts

theorem denotes (recollects : m.Recollects log) {first : Point} (member : first ∈ log)
    (finds : first.Finds owner ref after) (equal : owner.isNaN = false)
    : m.Denotes owner ref :=
  (recollects.found first member owner ref after finds).denotes
    (Environment.denotes_of_find finds.found equal)

theorem settled (recollects : m.Recollects log) : m.Settled log where
  again {first owner other ref after} member finds equal := by
    have self : owner.isNaN = false := EnvironmentOwner.same_self_iff.mp
      (EnvironmentOwner.same_trans equal (EnvironmentOwner.same_symm equal))
    obtain ⟨guard, found, holds⟩ := recollects.denotes member finds self
    refine Environment.find_of_denotes ⟨guard, ?_, holds⟩ ?_
    · rw [← EnvironmentCache.find?_congr equal, found]
    · have owns := (recollects.lasts first member).owns (Environment.find_cases finds.found).1
      cases owner <;> cases other <;> first | exact absurd equal Bool.false_ne_true | trivial | skip
      all_goals
        rcases Value.beq_cases equal with rfl | ⟨x, y, rfl, rfl, -⟩
        · exact owns
        · rfl
  distinct member also finds found equal also_equal :=
    recollects.housed.distinct (recollects.denotes member finds equal)
      (recollects.denotes also found also_equal)
  held := recollects.housed.held
  kept first member := (recollects.lasts first member).guards
  anew unequal ran := Environment.find_of_isNaN ran unequal

end Machine.Recollects

/-- Throughout the life of a runtime every lookup for an owner comes to the environment that the
first has come to, at every point and after every session. Only numbers that are not equal to
themselves are given new ones.
-/
theorem Machine.Logged.environments_last {accounts : Accounts} (life : Logged config accounts log m)
    : m.Settled log
      ∧ ∀ earlier here later, log = earlier ++ here :: later → here.machine.Settled earlier := by
  let P (log : List Point) (m : Machine) : Prop :=
    (∀ point ∈ log, ∃ accounts : Accounts, accounts.Balanced point.machine) → m.Recollects log
  have starts (heap : Nat) : P [] (create heap config) := fun _ => .create heap config
  have turns {log : List Point} {m : Machine} (context : ContextRef) (prototypes : PrototypeStore)
      (held : P log m)
      : P log { m with context, prototypes } := by
    intro balanced
    obtain ⟨⟨held, distinct⟩, found, lasts⟩ := held balanced
    exact ⟨⟨held, distinct⟩,
      fun first member owner ref after finds =>
        (found first member owner ref after finds).trans ⟨rfl, fun _ _ => id, List.Subset.refl _⟩,
      fun first member => (lasts first member).trans ⟨rfl, fun _ _ => id, List.Subset.refl _⟩⟩
  have step (log : List Point) (point : Point) (m : Machine) (held : P log point.machine)
      (moves : point.Moves m) (_ : point.Opened log m)
      : P (log ++ [point]) m := by
    intro balanced
    obtain ⟨accounts, here⟩ := balanced point (by simp)
    exact (held fun other member => balanced other (by simp [member])).step here moves
  refine ⟨(life.interleaved.holds starts turns step life.balanced).settled, ?_⟩
  rintro earlier here later rfl
  refine (life.interleaved.holds_at starts turns step rfl fun point member => ?_).settled
  exact life.balanced point (List.mem_append_left _ member)

/-- A host looks up the environment of one script twice, and makes one environment. -/
theorem Machine.Logged.environments_last_asked
    : ∃ (accounts : Accounts) (log : List Point) (m : Machine), Logged {} accounts log m
        ∧ log.length = 5 ∧ m.environments.size = 1 ∧ m.Settled log
        ∧ ∀ earlier here later, log = earlier ++ here :: later → here.machine.Settled earlier := by
  let request : Request := .environment (.script (.string "id"))
  let program : HostProgram := .ask request fun _ => .ask request fun _ => .finish []
  let start : Machine := { create 1 {} with context := ⟨0⟩, prototypes := {} }
  have allows : Watch.accounts.Allows {} (program.trace 1 start) := by decide +kernel
  have length : (program.trace 1 start).length = 4 := by decide +kernel
  have size : ((Plan.program none 0 program).run (Vm.call 1) start).last.environments.size = 1 := by
    decide +kernel
  have begins : Logged {} {} [] (create 1 {}) := .created 1
  have life := begins.session ⟨0⟩ {} 1 program allows
  refine ⟨_, _, _, life, ?_, size, life.environments_last⟩
  rw [List.nil_append, List.length_cons, length]

end HookMachine
