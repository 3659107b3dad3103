import HookMachine.Proofs.Deeds.Runs
import HookMachine.Proofs.Soundness.Lifetime
import HookMachine.Proofs.Soundness.PrototypeContents

/-!
What runs do to prototypes. They are added and have constants overwritten where that is asked for, by a
host or by the function of scripts that does it, and nowhere else.
-/

namespace HookMachine

variable {s : Scope} {m after : Machine}

-----------------------------------------------------------------------------------------
-- Edits
-----------------------------------------------------------------------------------------

/-- A change of the prototypes that runtimes share. -/
inductive Edit where
  | assemble (prototype : Prototype)
  | setConstant (ref : PrototypeRef) (place : Nat) (value : Value)

/-- The prototypes after a change. -/
def Edit.apply (store : PrototypeStore) : Edit → PrototypeStore
  | .assemble prototype => (store.insert prototype).2
  | .setConstant ref place value => store.setConstant ref place value

/-- The prototypes after changes, one after the other. -/
def PrototypeStore.edited (store : PrototypeStore) (edits : List Edit) : PrototypeStore :=
  edits.foldl Edit.apply store

theorem PrototypeStore.edited_append (store : PrototypeStore) (edits more : List Edit)
    : store.edited (edits ++ more) = (store.edited edits).edited more :=
  List.foldl_append ..

/-- What it is in a machine to overwrite a constant of a function: nothing, unless it has one at the
position and the value belongs to the heap.
-/
def Machine.edit? (m : Machine) (f : Value) (position : Int) (value : Value) : Option Edit :=
  if m.heap.owns value then
    match f with
    | .closure ref =>
        (m.heap.closures.get ref.handle).toOption.bind fun c =>
          (Reflection.slot? position (m.prototypes.get c.prototype).constants.size).map fun place =>
            .setConstant c.prototype place value
    | _ => none
  else
    none

/-- What a native of a runtime that is alive does to prototypes. -/
def NativeBody.edit? (m : Machine) (arguments : List Value) : NativeBody → Option Edit
  | .script .setConstant =>
      if m.config.privilegedLevel ≤ m.identities.level m.context then
        match Script.integer arguments 1 "constant index" m with
        | .ok position _ => m.edit? (Script.argument arguments 0) position (Script.argument arguments 2)
        | .error .. => none
      else
        none
  | _ => none

/-- What a request does to prototypes. -/
def Request.edit? (m : Machine) : Request → Option Edit
  | .assemble prototype => some (.assemble prototype)
  | .setConstant f position value => m.edit? f position value
  | _ => none

/-- What is done to prototypes at a point. -/
def Point.edit? (point : Point) : Option Edit :=
  point.tells? (fun body arguments => body.edit? point.machine arguments)
    (Request.edit? point.machine)

-----------------------------------------------------------------------------------------
-- What edits leave
-----------------------------------------------------------------------------------------

namespace Edit

variable {edit : Edit} {store : PrototypeStore} {ref target : PrototypeRef} {value : Value}

theorem size_apply_le (edit : Edit) (store : PrototypeStore)
    : store.prototypes.size ≤ (edit.apply store).prototypes.size := by
  cases edit <;> simp [apply]

/-- An edit leaves what was handed out alone, but for the prototype whose constant it overwrites. -/
theorem get_apply (bound : ref.index < store.prototypes.size)
    (spares : ∀ place value, edit ≠ .setConstant ref place value)
    : (edit.apply store).get ref = store.get ref := by
  cases edit with
  | assemble p => exact PrototypeStore.get_insert_of_lt p bound
  | setConstant changed place value =>
      have other : ref ≠ changed := by
        rintro rfl
        exact spares place value rfl
      exact (PrototypeStore.get_setConstant ..).trans (if_neg other)

theorem nests_of_apply (nests : (edit.apply store).Nests ref target)
    (bound : ref.index < store.prototypes.size)
    : store.Nests ref target := by
  cases edit with
  | assemble p => exact PrototypeStore.nests_of_insert p nests bound
  | setConstant => exact PrototypeStore.nests_of_setConstant nests

theorem mem_constants_of_apply (member : value ∈ ((edit.apply store).get ref).constants)
    (bound : ref.index < store.prototypes.size)
    : value ∈ (store.get ref).constants ∨ ∃ place, edit = .setConstant ref place value := by
  by_cases spares : ∀ place value, edit ≠ .setConstant ref place value
  · rw [get_apply bound spares] at member
    exact .inl member
  · obtain ⟨place, new, rfl⟩ : ∃ place new, edit = .setConstant ref place new := by
      simpa using spares
    rcases PrototypeStore.mem_constants_setConstant member with rfl | member
    · exact .inr ⟨place, rfl⟩
    · exact .inl member

end Edit

namespace PrototypeStore

variable {store : PrototypeStore} {edits : List Edit} {ref target : PrototypeRef} {value : Value}

/-- Prototypes none of whose constants is overwritten stay as they are, by induction over the edits. -/
theorem get_edited (bound : ref.index < store.prototypes.size)
    (spared : ∀ place value, .setConstant ref place value ∉ edits)
    : (store.edited edits).get ref = store.get ref := by
  induction edits generalizing store with
  | nil => rfl
  | cons edit rest ih =>
      have later := ih (Nat.lt_of_lt_of_le bound (edit.size_apply_le store)) fun place value member =>
        spared place value (.tail _ member)
      refine later.trans (Edit.get_apply bound fun place value same => ?_)
      exact spared place value (same ▸ .head _)

theorem nests_of_edited (nests : (store.edited edits).Nests ref target)
    (bound : ref.index < store.prototypes.size)
    : store.Nests ref target := by
  induction edits generalizing store with
  | nil => exact nests
  | cons edit rest ih =>
      exact Edit.nests_of_apply (ih nests (Nat.lt_of_lt_of_le bound (edit.size_apply_le store))) bound

theorem mem_constants_of_edited (member : value ∈ ((store.edited edits).get ref).constants)
    (bound : ref.index < store.prototypes.size)
    : value ∈ (store.get ref).constants ∨ ∃ place, .setConstant ref place value ∈ edits := by
  induction edits generalizing store with
  | nil => exact .inl member
  | cons edit rest ih =>
      have later := ih member (Nat.lt_of_lt_of_le bound (edit.size_apply_le store))
      rcases later with member | ⟨place, later⟩
      · refine (Edit.mem_constants_of_apply member bound).imp_right fun ⟨place, same⟩ => ?_
        exact ⟨place, same ▸ .head _⟩
      · exact .inr ⟨place, .tail _ later⟩

/-- What the constants of a prototype and of those that it nests refer to was there before the edits,
or one of them has put it there.
-/
theorem mem_references_of_edited (member : value ∈ (store.edited edits).references ref)
    (bound : ref.index < store.prototypes.size)
    : value ∈ store.references ref
      ∨ ∃ changed place, store.Nests ref changed ∧ .setConstant changed place value ∈ edits := by
  obtain ⟨target, nests, constant, reference⟩ := mem_references.mp member
  have nests := nests_of_edited nests bound
  rcases mem_constants_of_edited constant (nests.bound bound) with constant | ⟨place, put⟩
  · exact .inl (mem_references.mpr ⟨target, nests, constant, reference⟩)
  · exact .inr ⟨target, place, nests, put⟩

end PrototypeStore

-----------------------------------------------------------------------------------------
-- Overwriting constants
-----------------------------------------------------------------------------------------

/-- Overwriting a constant changes nothing but prototypes, and these as it is told. -/
theorem Reflection.setConstant_last (f : Value) (position : Int) (value : Value) (m : Machine)
    : (setConstant f position value m).last.prototypes
      = m.prototypes.edited (m.edit? f position value).toList := by
  unfold Machine.edit?
  cases owned : m.heap.owns value with
  | false =>
      have foreign : (liftM (Vm.checkOwner value) : Action Unit) m = .error _ m :=
        Run.lift_error (Vm.checkOwner_of_foreign owned)
      unfold setConstant
      rw [Run.bind_error foreign]
      rfl
  | true =>
      have passed : (liftM (Vm.checkOwner value) : Action Unit) m = .ok () m :=
        Run.lift_ok (Vm.checkOwner_of_owns owned)
      unfold setConstant
      rw [Run.bind_ok passed]
      cases f with
      | closure ref =>
          cases found : m.heap.closures.get ref.handle with
          | error miss =>
              have missed : prototypeOf (.closure ref) m = .error _ m :=
                Run.bind_error (Run.lift_error (Vm.closure_of_miss found))
              rw [Run.bind_error missed, if_pos rfl]
              dsimp only
              rw [found]
              rfl
          | ok c =>
              have known : prototypeOf (.closure ref) m = .ok (some c.prototype) m :=
                Run.bind_ok (Run.lift_ok (Vm.closure_of_get found))
              have read : (liftM (Vm.prototype c.prototype) : Action Prototype) m
                  = .ok (m.prototypes.get c.prototype) m :=
                rfl
              rw [Run.bind_ok known, if_pos rfl]
              dsimp only
              rw [Run.bind_ok read, found]
              dsimp only [Except.toOption, Option.bind_some]
              cases slot? position (m.prototypes.get c.prototype).constants.size <;> rfl
      | _ => rfl

/-- An argument is an integer or not, whatever the machine. -/
theorem Script.integer_cases (arguments : List Value) (i : Nat) (what : String)
    : (∃ n, integer arguments i what = pure n)
      ∨ ∃ refusal, integer arguments i what = Action.refuse refusal := by
  unfold integer
  dsimp only
  cases argument arguments i with
  | number x =>
      dsimp only
      cases Number.toInt? x with
      | some n => exact .inl ⟨_, rfl⟩
      | none => exact .inr ⟨_, rfl⟩
  | _ => exact .inr ⟨_, rfl⟩

/-- A script overwrites constants as the host does, with the privilege and not without it. -/
theorem Script.setConstant_last (nested : Nested) (caller : Option ClosureRef)
    (arguments : List Value) (m : Machine)
    : (run nested caller .setConstant arguments m).last.prototypes
      = m.prototypes.edited
          (NativeBody.edit? m arguments (.script .setConstant)).toList := by
  by_cases privileged : m.Privileged
  · have passed := Clearance.requirePrivilege_of_privileged ScriptFunction.setConstant.name
      privileged
    have ran : run nested caller .setConstant arguments m = _ := Run.bind_ok passed
    rw [ran]
    unfold NativeBody.edit?
    rw [if_pos (show m.config.privilegedLevel ≤ m.identities.level m.context from privileged)]
    rcases integer_cases arguments 1 "constant index" with ⟨position, given⟩ | ⟨refusal, refused⟩
    · rw [given]
      have done := Reflection.setConstant_last (argument arguments 0) position
        (argument arguments 2) m.observed
      refine Eq.trans ?_ done
      change (EStateM.bind (Reflection.setConstant _ _ _) _ m.observed).last.prototypes = _
      unfold EStateM.bind
      cases Reflection.setConstant (argument arguments 0) position (argument arguments 2) m.observed
        <;> rfl
    · rw [refused]
      rfl
  · have denied := Clearance.requirePrivilege_of_not ScriptFunction.setConstant.name privileged
    have ran : run nested caller .setConstant arguments m = _ := Run.bind_error denied
    rw [ran]
    unfold NativeBody.edit?
    rw [if_neg (show ¬m.config.privilegedLevel ≤ m.identities.level m.context from privileged)]
    rfl

-----------------------------------------------------------------------------------------
-- What is done to prototypes
-----------------------------------------------------------------------------------------

/-- Without the deed prototypes are left alone. -/
theorem Scope.Leads.unprogrammed (leads : s.Leads m after) (barred : ¬s.allows .program)
    : after.prototypes = m.prototypes := by
  induction leads with
  | refl => rfl
  | tail _ change ih =>
      refine Eq.trans ?_ ih
      cases change with
      | beside beside => exact beside.prototypes
      | programmed allowed => exact absurd allowed barred
      | _ => rfl

namespace Point

variable {point : Point}

/-- What is done to prototypes at a point is granted there. -/
theorem grants_of_edit? {edit : Edit} (edits : point.edit? = some edit)
    : point.Grants .program := by
  rcases of_tells? edits with ⟨request, asked, edits⟩ | ⟨-, alive, n, arguments, passes, edits⟩
  · refine .asks asked ?_
    cases request with
    | assemble => exact .assemble
    | setConstant => exact .setConstant
    | _ => cases edits
  · unfold NativeBody.edit? at edits
    split at edits
    · rename_i runs
      split at edits
      · rename_i privileged
        exact .performs ⟨alive, n, runs, passes⟩ (.setConstant privileged)
      · cases edits
    · cases edits

/-- What is done to prototypes up to the next point is what the point tells. -/
theorem Moves.prototypes (moves : point.Moves after)
    : after.prototypes = point.machine.prototypes.edited point.edit?.toList := by
  rcases moves with goes | ⟨collects, rfl⟩
  · by_cases grants : point.Grants .program
    · cases grants with
      | @performs f arguments performs grants =>
          cases grants
          obtain ⟨caller, heads⟩ := performs.heads nofun
          obtain ⟨alive, n, runs, passes⟩ := performs
          have unasked (request : Request) : point.mark ≠ .asks request := by
            intro asked
            unfold Passes at passes
            rw [asked] at passes
            exact passes
          have told : point.edit? = _ := tells?_of_passes unasked passes
          rw [(goes.heads _ heads).beside.prototypes, Script.setConstant_last, told, if_pos alive,
            runs]
      | @asks request asked grants =>
          obtain ⟨mark, m⟩ := point
          cases asked
          cases grants with
          | assemble => exact (goes.heads _ rfl).beside.prototypes
          | @setConstant f position value =>
              have near := goes.heads _ rfl
              exact near.beside.prototypes.trans (Reflection.setConstant_last f position value m)
      | stores _ _ _ writes | enters _ writes => cases writes
    · have untold : point.edit? = none := by
        cases edits : point.edit? with
        | none => rfl
        | some edit => exact absurd (grants_of_edit? edits) grants
      obtain ⟨outset, set, leads⟩ := goes.comes
      rw [untold, leads.unprogrammed grants]
      cases set <;> rfl
  · obtain ⟨mark, m⟩ := point
    cases collects
    change m.collect.2.prototypes = m.prototypes
    unfold Machine.collect
    split <;> rfl

end Point

/-- What a constant is overwritten with belongs to the heap of the machine. -/
theorem Machine.owns_of_edit? {f value written : Value} {position : Int} {ref : PrototypeRef}
    {place : Nat} (edits : m.edit? f position value = some (.setConstant ref place written))
    : m.heap.owns written = true := by
  unfold edit? at edits
  split at edits
  · rename_i owned
    split at edits
    · obtain ⟨c, -, edits⟩ := Option.bind_eq_some_iff.mp edits
      obtain ⟨_, -, same⟩ := Option.map_eq_some_iff.mp edits
      cases same
      exact owned
    · cases edits
  · cases edits

theorem Machine.lt_size_of_edit? {f value written : Value} {position : Int} {ref : PrototypeRef}
    {place : Nat} (edits : m.edit? f position value = some (.setConstant ref place written))
    : place < (m.prototypes.get ref).constants.size := by
  unfold edit? at edits
  split at edits
  · split at edits
    · obtain ⟨c, -, edits⟩ := Option.bind_eq_some_iff.mp edits
      obtain ⟨_, placed, same⟩ := Option.map_eq_some_iff.mp edits
      cases same
      unfold Reflection.slot? at placed
      split at placed
      · cases placed
        omega
      · cases placed
    · cases edits
  · cases edits

namespace Point

variable {point : Point}

/-- Where a constant is overwritten, a function or a host overwrites one of a closure. -/
theorem of_edit?_setConstant {ref : PrototypeRef} {place : Nat} {value : Value}
    (edits : point.edit? = some (.setConstant ref place value))
    : ∃ f position given,
        point.machine.edit? f position given = some (.setConstant ref place value) := by
  rcases of_tells? edits with ⟨request, asked, edits⟩ | ⟨-, alive, n, arguments, passes, edits⟩
  · cases request with
    | assemble => cases edits
    | setConstant f position given => exact ⟨f, position, given, edits⟩
    | _ => cases edits
  · unfold NativeBody.edit? at edits
    split at edits
    · split at edits
      · split at edits
        · exact ⟨_, _, _, edits⟩
        · cases edits
      · cases edits
    · cases edits

theorem owns_of_edit? {ref : PrototypeRef} {place : Nat} {value : Value}
    (edits : point.edit? = some (.setConstant ref place value))
    : point.machine.heap.owns value = true := by
  obtain ⟨f, position, given, edits⟩ := of_edit?_setConstant edits
  exact Machine.owns_of_edit? edits

/-- There is a constant where one is overwritten. -/
theorem lt_size_of_edit? {ref : PrototypeRef} {place : Nat} {value : Value}
    (edits : point.edit? = some (.setConstant ref place value))
    : place < (point.machine.prototypes.get ref).constants.size := by
  obtain ⟨f, position, given, edits⟩ := of_edit?_setConstant edits
  exact Machine.lt_size_of_edit? edits

theorem Moves.heap (moves : point.Moves after) : after.heap.id = point.machine.heap.id := by
  rcases moves with ⟨⟨outset, set, leads⟩, -⟩ | ⟨-, rfl⟩
  · refine leads.fixed.heap.trans ?_
    cases set <;> rfl
  · unfold Machine.collect
    split
    · rfl
    · exact Heap.id_collect ..

end Point

/-- What a session overwrites constants with belongs to the heap of its runtime. -/
theorem HostProgram.owned (session : HostProgram) (fuel : Nat) (m : Machine) {ref : PrototypeRef}
    {place : Nat} {value : Value}
    (edits : .setConstant ref place value ∈ (session.trace fuel m).filterMap Point.edit?)
    : m.heap.owns value = true := by
  obtain ⟨point, member, edits⟩ := List.mem_filterMap.mp edits
  obtain ⟨earlier, later, split⟩ := List.append_of_mem member
  have linked := session.linked fuel m
  rw [split] at linked
  have same : point.machine.heap.id = m.heap.id :=
    linked.holds_at (P := fun _ now => now.heap.id = m.heap.id)
      (fun _ _ _ held moves _ => moves.heap.trans held) [] rfl (Point.opened_of_ne (by nofun) _)
  have owned := Point.owns_of_edit? edits
  unfold Heap.owns at owned ⊢
  rwa [same] at owned

/-- Prototypes are what points of a log have done to those of a store. -/
def PrototypeStore.Told (store : PrototypeStore) (log : List Point) (m : Machine) : Prop :=
  m.prototypes = store.edited (log.filterMap Point.edit?)

namespace Point

theorem Moves.told {point : Point} {store : PrototypeStore} {log : List Point}
    (moves : point.Moves after) (told : store.Told log point.machine)
    : store.Told (log ++ [point]) after := by
  unfold PrototypeStore.Told at told ⊢
  rw [moves.prototypes, told, List.filterMap_append, PrototypeStore.edited_append]
  cases edits : point.edit? <;> simp [edits]

theorem edit?_of_left (m : Machine) : edit? ⟨.left, m⟩ = none :=
  tells?_of_apart (fun _ => nofun) fun n => not_passes_of_still rfl n

end Point

/-- A session does to prototypes what its points tell, one after the other. -/
theorem HostProgram.prototypes (session : HostProgram) (fuel : Nat) (m : Machine)
    : ((Plan.program none 0 session).run (Vm.call fuel) m).last.prototypes
      = m.prototypes.edited ((session.trace fuel m).filterMap Point.edit?) := by
  have told := (session.linked fuel m).holds_last (P := m.prototypes.Told)
    (fun _ _ _ told moves _ => moves.told told) [] rfl (Point.opened_of_ne (by nofun) _)
  rw [List.nil_append] at told
  exact told.trans (by rw [List.filterMap_cons_none (Point.edit?_of_left m)])

end HookMachine
