import HookMachine.Proofs.Sharing.Runtimes

/-!
Constants that closures share. One that is overwritten is seen through every closure over its prototype
and used by every instruction from then on, also of activations that run already, until it is overwritten
again. Nothing else changes.
-/

namespace HookMachine

variable {m after : Machine} {f value : Value} {position : Int} {ref : PrototypeRef} {place : Nat}
  {frame : Frame} {store : PrototypeStore}

-----------------------------------------------------------------------------------------
-- Overwriting a constant
-----------------------------------------------------------------------------------------

/-- A function is a closure over a prototype that has a constant at a position. -/
structure Machine.HasConstant (m : Machine) (f : Value) (position : Int) (ref : PrototypeRef)
    : Prop where
  closure : ∃ g c, f = .closure g ∧ m.heap.closures.get g.handle = .ok c ∧ c.prototype = ref
  least : 1 ≤ position
  most : position ≤ (m.prototypes.get ref).constants.size

namespace Reflection

theorem slot?_eq_some {n i : Nat}
    : slot? position n = some i ↔ (1 ≤ position ∧ position ≤ n) ∧ i = (position - 1).toNat := by
  unfold slot?
  split <;> simp_all [eq_comm]

/-- Positions that count from 1 name different places. -/
theorem slot?_inj {n i : Nat} {other : Int} (placed : slot? position n = some i)
    : slot? other n = some i ↔ other = position := by
  rw [slot?_eq_some] at placed ⊢
  omega

theorem lt_of_slot? {n i : Nat} (placed : slot? position n = some i) : i < n := by
  rw [slot?_eq_some] at placed
  omega

/-- Once a position is written, it shows what was written there, and every other position what it did. -/
theorem read_written {values : Array Value} {i : Nat} (placed : slot? position values.size = some i)
    (value : Value) (j : Int)
    : (slot? j values.size).map (fun k => (values.setIfInBounds i value).getD k .nil)
      = if j = position then some value else (slot? j values.size).map fun k => values.getD k .nil := by
  by_cases same : j = position
  · subst same
    rw [if_pos rfl, placed, Option.map_some, Array.getD_eq_getD_getElem?,
      Array.getElem?_setIfInBounds_self_of_lt (lt_of_slot? placed)]
    rfl
  · rw [if_neg same]
    refine Option.map_congr fun k other => ?_
    have apart : i ≠ k := by
      rintro rfl
      exact same ((slot?_inj placed).mp other)
    rw [Array.getD_eq_getD_getElem?, Array.getElem?_setIfInBounds_ne apart,
      ← Array.getD_eq_getD_getElem?]

/-- How overwriting a constant comes out: it fails, there is no such constant, or it is overwritten. -/
inductive Overwriting (m : Machine) (f : Value) (position : Int) (value : Value)
    : EStateM.Result (Halt Failure) Machine Bool → Prop
  | fails {failure : Failure} (lacks : m.heap.owns value = true → ∀ ref, ¬m.HasConstant f position ref)
    : Overwriting m f position value (.error (.failed failure) m)
  | absent (lacks : ∀ ref, ¬m.HasConstant f position ref)
    : Overwriting m f position value (.ok false m)
  | overwrites {ref : PrototypeRef} (owned : m.heap.owns value = true)
    (has : m.HasConstant f position ref)
    : Overwriting m f position value
        (.ok true { m with
          prototypes := m.prototypes.setConstant ref (position - 1).toNat value })

theorem setConstant_as (m : Machine) (f : Value) (position : Int) (value : Value)
    : Overwriting m f position value (setConstant f position value m) := by
  cases owned : m.heap.owns value with
  | false =>
      have foreign : (liftM (Vm.checkOwner value) : Action Unit) m = .error _ m :=
        Run.lift_error (Vm.checkOwner_of_foreign owned)
      unfold setConstant
      rw [Run.bind_error foreign]
      exact .fails fun owns => nomatch owned.symm.trans owns
  | true =>
      have passed : (liftM (Vm.checkOwner value) : Action Unit) m = .ok () m :=
        Run.lift_ok (Vm.checkOwner_of_owns owned)
      unfold setConstant
      rw [Run.bind_ok passed]
      cases f with
      | closure g =>
          cases found : m.heap.closures.get g.handle with
          | error miss =>
              have missed : prototypeOf (.closure g) m = .error _ m :=
                Run.bind_error (Run.lift_error (Vm.closure_of_miss found))
              rw [Run.bind_error missed]
              refine .fails fun _ ref has => ?_
              obtain ⟨_, c, ⟨⟩, held, -⟩ := has.closure
              cases found.symm.trans held
          | ok c =>
              have known : prototypeOf (.closure g) m = .ok (some c.prototype) m :=
                Run.bind_ok (Run.lift_ok (Vm.closure_of_get found))
              have read : (liftM (Vm.prototype c.prototype) : Action Prototype) m
                  = .ok (m.prototypes.get c.prototype) m :=
                rfl
              rw [Run.bind_ok known]
              dsimp only
              rw [Run.bind_ok read]
              cases placed : slot? position (m.prototypes.get c.prototype).constants.size with
              | none =>
                  refine .absent fun ref has => ?_
                  obtain ⟨_, d, ⟨⟩, held, rfl⟩ := has.closure
                  cases found.symm.trans held
                  have here := slot?_eq_some.mpr ⟨⟨has.least, has.most⟩, rfl⟩
                  cases placed.symm.trans here
              | some i =>
                  obtain ⟨⟨least, most⟩, rfl⟩ := slot?_eq_some.mp placed
                  exact .overwrites owned ⟨⟨g, c, rfl, found, rfl⟩, least, most⟩
      | native g => exact .absent fun ref has => nomatch has.closure
      | _ => exact .fails fun _ ref has => nomatch has.closure

end Reflection

theorem Machine.edit?_eq_some {edit : Edit}
    : m.edit? f position value = some edit
      ↔ m.heap.owns value = true ∧ ∃ ref, m.HasConstant f position ref
        ∧ edit = .setConstant ref (position - 1).toNat value := by
  unfold edit?
  constructor
  · intro edits
    split at edits
    · rename_i owned
      split at edits
      · rename_i g
        obtain ⟨c, found, edits⟩ := Option.bind_eq_some_iff.mp edits
        obtain ⟨place, placed, rfl⟩ := Option.map_eq_some_iff.mp edits
        obtain ⟨⟨least, most⟩, rfl⟩ := Reflection.slot?_eq_some.mp placed
        have held : m.heap.closures.get g.handle = .ok c := by
          cases held : m.heap.closures.get g.handle <;> rw [held] at found <;> cases found
          rfl
        exact ⟨owned, c.prototype, ⟨⟨g, c, rfl, held, rfl⟩, least, most⟩, rfl⟩
      · cases edits
    · cases edits
  · rintro ⟨owned, ref, ⟨⟨g, c, rfl, held, rfl⟩, least, most⟩, rfl⟩
    rw [if_pos owned]
    dsimp only
    rw [held]
    exact congrArg (Option.map _) (Reflection.slot?_eq_some.mpr ⟨⟨least, most⟩, rfl⟩)

-----------------------------------------------------------------------------------------
-- What is seen through closures
-----------------------------------------------------------------------------------------

namespace Reflection

variable {g : ClosureRef} {d : Closure}

theorem inspect_of_get {α : Type} (found : m.heap.closures.get g.handle = .ok d)
    (view : Prototype → α)
    : inspect (.closure g) view m = .ok (some (view (m.prototypes.get d.prototype))) m := by
  have known : prototypeOf (.closure g) m = .ok (some d.prototype) m :=
    Run.bind_ok (Run.lift_ok (Vm.closure_of_get found))
  unfold inspect
  rw [Run.bind_ok known]
  rfl

theorem constant_of_get (found : m.heap.closures.get g.handle = .ok d) (position : Int)
    : constant (.closure g) position m
      = .ok ((slot? position (m.prototypes.get d.prototype).constants.size).map
          fun i => (m.prototypes.get d.prototype).constants.getD i .nil) m := by
  unfold constant
  rw [Run.bind_ok (inspect_of_get found _)]
  rfl

/-- What describes a nested prototype is found in the prototypes alone. -/
theorem nested_of_get (found : m.heap.closures.get g.handle = .ok d) (caller : Option ClosureRef)
    (position : Int)
    : nested caller (.closure g) position false m
      = .ok (((slot? position (m.prototypes.get d.prototype).nested.size).bind
          ((m.prototypes.get d.prototype).nested[·]?)).map
            fun child => .description (m.prototypes.get child).info) m := by
  have known : (liftM (Vm.closure g) : Action Closure) m = .ok d m :=
    Run.lift_ok (Vm.closure_of_get found)
  have read (ref : PrototypeRef)
      : (liftM (Vm.prototype ref) : Action Prototype) m = .ok (m.prototypes.get ref) m :=
    rfl
  unfold nested
  dsimp only
  rw [Run.bind_ok known, Run.bind_ok (read _)]
  cases (slot? position (m.prototypes.get d.prototype).nested.size).bind
      ((m.prototypes.get d.prototype).nested[·]?) with
  | none => rfl
  | some child =>
      dsimp only
      rw [if_neg nofun, Run.bind_ok (read _)]
      rfl

end Reflection

/-- Overwriting a constant changes nothing of prototypes but constants. -/
theorem PrototypeStore.get_setConstant_eq (store : PrototypeStore) (ref : PrototypeRef) (place : Nat)
    (value : Value) (other : PrototypeRef)
    : (store.setConstant ref place value).get other
      = { store.get other with
          constants :=
            if other = ref then (store.get other).constants.setIfInBounds place value
            else (store.get other).constants } := by
  rw [get_setConstant]
  split <;> rfl

/-- Descriptions of prototypes tell how many constants there are, and not which. -/
theorem PrototypeStore.info_setConstant (store : PrototypeStore) (ref : PrototypeRef) (place : Nat)
    (value : Value) (other : PrototypeRef)
    : ((store.setConstant ref place value).get other).info = (store.get other).info := by
  rw [get_setConstant_eq]
  unfold Prototype.info
  dsimp only
  split
  · rw [Array.size_setIfInBounds]
  · rfl

-----------------------------------------------------------------------------------------
-- What instructions use
-----------------------------------------------------------------------------------------

/-- Every instruction of an activation that names a constant uses this value for it. -/
structure Frame.Uses (frame : Frame) (k : Nat) (value : Value) (m : Machine) : Prop where
  operand {field : Nat}
    : field &&& 0x100 ≠ 0 → field &&& 0xff = k → Vm.operand frame field m = .ok value m
  loadK {i : Instruction} (invoke : Invoke)
    : i.bx = k → Vm.execute invoke frame .loadK i m = .ok (frame.write i.a value) m
  getGlobal {i : Instruction} (invoke : Invoke)
    : i.bx = k → Vm.execute invoke frame .getGlobal i m
        = (do
          let read ← Vm.index invoke (.table frame.environment) value frame.depth
          return frame.write i.a read : Vm Frame) m
  setGlobal {i : Instruction} (invoke : Invoke)
    : i.bx = k → Vm.execute invoke frame .setGlobal i m
        = (do
          Vm.assign invoke (.table frame.environment) value (frame.read i.a) frame.depth
          return frame : Vm Frame) m

/-- Activations have no constants of their own: they read those of their prototype. -/
theorem Frame.uses_of_constant (held : (m.prototypes.get frame.prototype).constants[place]? = some value)
    : frame.Uses place value m := by
  have read : Vm.constant frame place m = .ok value m := by
    unfold Vm.constant
    have looked : Vm.prototype frame.prototype m = .ok (m.prototypes.get frame.prototype) m := rfl
    rw [Run.bind_ok looked, held]
    rfl
  constructor
  · rintro field marked rfl
    unfold Vm.operand
    rw [if_pos marked]
    exact read
  · rintro i invoke rfl
    exact Run.bind_ok read
  · rintro i invoke rfl
    exact Run.bind_ok read
  · rintro i invoke rfl
    exact Run.bind_ok read

-----------------------------------------------------------------------------------------
-- One constant overwritten
-----------------------------------------------------------------------------------------

/-- The machine after a constant of a prototype is overwritten: closures over that prototype show the new
value at its position, and nothing else changes.
-/
structure Machine.Overwrites (m : Machine) (ref : PrototypeRef) (position : Int) (value : Value)
    (after : Machine)
    : Prop where
  rest : after = { m with prototypes := after.prototypes }
  prototypes (other : PrototypeRef)
    : after.prototypes.get other
      = { m.prototypes.get other with constants := (after.prototypes.get other).constants }
  constant {g d} (found : m.heap.closures.get g.handle = .ok d) (j : Int)
    : ∃ seen, Reflection.constant (.closure g) j m = .ok seen m
        ∧ Reflection.constant (.closure g) j after
          = .ok (if d.prototype = ref ∧ j = position then some value else seen) after
  info {g d} (found : m.heap.closures.get g.handle = .ok d)
    : ∃ seen, Reflection.info (.closure g) m = .ok (some seen) m
        ∧ Reflection.info (.closure g) after = .ok (some seen) after
  digest {g d} (found : m.heap.closures.get g.handle = .ok d)
    : ∃ seen, Reflection.digest (.closure g) m = .ok (some seen) m
        ∧ Reflection.digest (.closure g) after = .ok (some seen) after
  nested {g d} (found : m.heap.closures.get g.handle = .ok d) (caller : Option ClosureRef) (j : Int)
    : ∃ seen, Reflection.nested caller (.closure g) j false m = .ok seen m
        ∧ Reflection.nested caller (.closure g) j false after = .ok seen after
  uses {frame : Frame} : frame.prototype = ref → frame.Uses (position - 1).toNat value after

theorem Machine.HasConstant.slot? (has : m.HasConstant f position ref)
    : Reflection.slot? position (m.prototypes.get ref).constants.size = some (position - 1).toNat :=
  Reflection.slot?_eq_some.mpr ⟨⟨has.least, has.most⟩, rfl⟩

theorem Machine.HasConstant.overwrites (has : m.HasConstant f position ref) (value : Value)
    : m.Overwrites ref position value
        { m with prototypes := m.prototypes.setConstant ref (position - 1).toNat value } := by
  have get (other : PrototypeRef) := m.prototypes.get_setConstant_eq ref (position - 1).toNat value other
  constructor
  case rest => rfl
  case prototypes => exact fun other => by rw [get]
  case constant =>
    intro g d found j
    refine ⟨_, Reflection.constant_of_get found j, ?_⟩
    rw [Reflection.constant_of_get (by exact found) j]
    dsimp only
    rw [get]
    dsimp only
    by_cases shared : d.prototype = ref
    · subst shared
      rw [if_pos rfl, Array.size_setIfInBounds, Reflection.read_written has.slot? value j]
      simp only [true_and]
    · rw [if_neg shared, if_neg fun both => shared both.1]
  case info =>
    intro g d found
    refine ⟨_, Reflection.inspect_of_get found _, ?_⟩
    refine (Reflection.inspect_of_get (by exact found) _).trans ?_
    rw [PrototypeStore.info_setConstant]
  case digest =>
    intro g d found
    refine ⟨_, Reflection.inspect_of_get found _, ?_⟩
    refine (Reflection.inspect_of_get (by exact found) _).trans ?_
    dsimp only
    rw [get]
    rfl
  case nested =>
    intro g d found caller j
    refine ⟨_, Reflection.nested_of_get found caller j, ?_⟩
    rw [Reflection.nested_of_get (by exact found) caller j]
    simp only [PrototypeStore.info_setConstant]
    rw [get]
  case uses =>
    rintro frame rfl
    refine Frame.uses_of_constant ?_
    dsimp only
    rw [get, if_pos rfl]
    exact Array.getElem?_setIfInBounds_self_of_lt (Reflection.lt_of_slot? has.slot?)

/-- What becomes of constants where one of a function is to be overwritten. -/
structure Machine.SetsConstant (m : Machine) (f : Value) (position : Int) (value : Value) : Prop where
  /-- There is nothing to overwrite but a constant of a closure. -/
  succeeds
    : m.heap.owns value = true
      → ((∃ after, Reflection.setConstant f position value m = .ok true after)
        ↔ ∃ ref, m.HasConstant f position ref)
  overwrites
    : ∀ after, Reflection.setConstant f position value m = .ok true after
      → ∃ ref, m.HasConstant f position ref ∧ m.Overwrites ref position value after
        ∧ m.edit? f position value = some (.setConstant ref (position - 1).toNat value)
  absent : ∀ after, Reflection.setConstant f position value m = .ok false after → after = m
  fails : ∀ halt after, Reflection.setConstant f position value m = .error halt after → after = m

theorem Machine.setsConstant (m : Machine) (f : Value) (position : Int) (value : Value)
    : m.SetsConstant f position value := by
  have as := Reflection.setConstant_as m f position value
  constructor
  case succeeds =>
    intro owned
    generalize Reflection.setConstant f position value m = result at as ⊢
    cases as with
    | fails lacks => exact iff_of_false (fun ⟨_, ended⟩ => nomatch ended) fun ⟨_, has⟩ => lacks owned _ has
    | absent lacks => exact iff_of_false (fun ⟨_, ended⟩ => nomatch ended) fun ⟨_, has⟩ => lacks _ has
    | overwrites _ has => exact iff_of_true ⟨_, rfl⟩ ⟨_, has⟩
  case overwrites =>
    intro after ended
    rw [ended] at as
    cases as with
    | overwrites owned has =>
        exact ⟨_, has, has.overwrites value, Machine.edit?_eq_some.mpr ⟨owned, _, has, rfl⟩⟩
  case absent =>
    intro after ended
    rw [ended] at as
    cases as
    rfl
  case fails =>
    intro halt after ended
    rw [ended] at as
    cases as
    rfl

-----------------------------------------------------------------------------------------
-- Until it is overwritten again
-----------------------------------------------------------------------------------------

namespace PrototypeStore

/-- A constant stays until it is overwritten, by induction over the edits. -/
theorem constant_edited {edits : List Edit} (held : (store.get ref).constants[place]? = some value)
    (spared : ∀ new, .setConstant ref place new ∉ edits)
    : ((store.edited edits).get ref).constants[place]? = some value := by
  induction edits generalizing store with
  | nil => exact held
  | cons edit rest ih =>
      refine ih ?_ fun new member => spared new (.tail _ member)
      cases edit with
      | assemble p =>
          have bound : ref.index < store.prototypes.size := by
            by_contra beyond
            simp [get, Array.getD_eq_getD_getElem?, Array.getElem?_eq_none (Nat.not_lt.mp beyond)]
              at held
          exact (congrArg (·.constants[place]?) (get_insert_of_lt p bound)).trans held
      | setConstant changed other new =>
          change ((store.setConstant changed other new).get ref).constants[place]? = _
          rw [get_setConstant_eq]
          dsimp only
          split
          · rename_i same
            subst same
            have apart : other ≠ place := by
              rintro rfl
              exact spared new (.head _)
            exact (Array.getElem?_setIfInBounds_ne apart).trans held
          · exact held

end PrototypeStore

/-- Prototypes at a point of a session are what the points before it tell. -/
theorem HostProgram.prototypes_at (session : HostProgram) (fuel : Nat) (m : Machine)
    {earlier later : List Point} {here : Point} (split : session.trace fuel m = earlier ++ here :: later)
    : here.machine.prototypes = m.prototypes.edited (earlier.filterMap Point.edit?) := by
  have linked := session.linked fuel m
  rw [split] at linked
  have told := linked.holds_at (P := m.prototypes.Told) (fun _ _ _ told moves _ => moves.told told) []
    rfl (Point.opened_of_ne (by nofun) _)
  rw [List.nil_append] at told
  exact told.trans (by rw [List.filterMap_cons_none (Point.edit?_of_left m)])

namespace Host

/-- Prototypes at a point of visits to any runtimes are what the points before it tell, by induction
over the visits.
-/
theorem prototypes_at (host : Host) {itinerary : Itinerary} {earlier later : List Point} {here : Point}
    (split : host.trace itinerary = earlier ++ here :: later)
    : here.machine.prototypes = host.prototypes.edited (earlier.filterMap Point.edit?) := by
  induction itinerary generalizing host earlier with
  | nil => simp [trace] at split
  | cons stop rest ih =>
      obtain ⟨a, visit⟩ := stop
      have first : (host.visit a visit).2.prototypes
          = host.prototypes.edited ((host.stretch a visit).filterMap Point.edit?) :=
        (host.besides_visit a visit).prototypes
      rcases List.append_eq_append_iff.mp split with ⟨more, rfl, others⟩ | ⟨more, inside, others⟩
      · rw [List.filterMap_append, PrototypeStore.edited_append, ← first]
        exact ih _ others
      · cases more with
        | nil =>
            rw [List.append_nil] at inside
            rw [← inside, ← first]
            exact @ih _ [] others.symm
        | cons point more =>
            obtain ⟨rfl, rfl⟩ := List.cons.inj others
            unfold stretch at inside
            cases found : host.entered? a visit.context with
            | none => simp [found] at inside
            | some entered =>
                rw [found] at inside
                obtain ⟨m, -, rfl⟩ := Option.map_eq_some_iff.mp found
                cases visit with
                | session context fuel program => exact program.prototypes_at fuel _ inside
                | drop context => simp [Visit.trace] at inside

/-- A constant that is overwritten shows through every closure over its prototype, and whatever is done
with any runtime of the host every instruction that names it uses the new value, until it is overwritten
again.
-/
theorem constants_shared (host : Host) (itinerary : Itinerary)
    : (∀ (m : Machine) (f : Value) (position : Int) (value : Value), m.SetsConstant f position value)
      ∧ ∀ earlier point between here later ref place value,
          host.trace itinerary = earlier ++ point :: (between ++ here :: later)
          → point.edit? = some (.setConstant ref place value)
          → (∀ other ∈ between, ∀ new, other.edit? ≠ some (.setConstant ref place new))
          → ∀ frame : Frame, frame.prototype = ref → frame.Uses place value here.machine := by
  refine ⟨Machine.setsConstant, ?_⟩
  rintro earlier point between here later _ place value split edits spared frame rfl
  have before := host.prototypes_at split
  rw [← List.cons_append, ← List.append_assoc] at split
  have told := host.prototypes_at split
  rw [List.filterMap_append, PrototypeStore.edited_append, ← before, List.filterMap_cons_some edits]
    at told
  have held : ((point.machine.prototypes.setConstant frame.prototype place value).get
      frame.prototype).constants[place]? = some value := by
    rw [PrototypeStore.get_setConstant_eq, if_pos rfl]
    exact Array.getElem?_setIfInBounds_self_of_lt (Point.lt_size_of_edit? edits)
  have still := PrototypeStore.constant_edited held
    fun new (member : _ ∈ between.filterMap Point.edit?) => by
      obtain ⟨other, among, put⟩ := List.mem_filterMap.mp member
      exact spared other among new put
  refine Frame.uses_of_constant ?_
  rw [told]
  exact still

end Host
end HookMachine
