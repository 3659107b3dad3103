import HookMachine.Proofs.Sharing.Prototypes

/-!
Runtimes beside each other. What is done with one of them reaches the others by prototypes alone, and
by these only as far as they are added or have constants overwritten.
-/

namespace HookMachine

-----------------------------------------------------------------------------------------
-- Visits
-----------------------------------------------------------------------------------------

/-- What a host does with a runtime. -/
inductive Visit where
  /-- It runs a program there for an execution context. -/
  | session (context : ContextRef) (fuel : Nat) (program : HostProgram)
  /-- It drops the runtime. -/
  | drop (context : ContextRef)

/-- What a host does with one of its runtimes after the other. -/
abbrev Itinerary : Type :=
  List (RuntimeRef × Visit)

/-- What a visit comes to. -/
abbrev Visit.Outcome : Type :=
  Option (Except (Halt Fault) (List Value))

namespace Visit

def context : Visit → ContextRef
  | session context .. | drop context => context

def run : Visit → Vm (List Value)
  | session _ fuel program => (Plan.program none 0 program).run (Vm.call fuel)
  | drop _ => do
      modify Machine.drop
      return []

/-- What a visit to a runtime comes to. -/
def result (visit : Visit) (m : Machine) : Except (Halt Fault) (List Value) :=
  match visit.run m with
  | .ok results _ => .ok results
  | .error halt _ => .error halt

/-- The points that a visit comes by. -/
def trace (m : Machine) : Visit → List Point
  | session _ fuel program => program.trace fuel m
  | drop _ => []

theorem prototypes (visit : Visit) (m : Machine)
    : (visit.run m).last.prototypes
      = m.prototypes.edited ((visit.trace m).filterMap Point.edit?) := by
  cases visit with
  | session context fuel program => exact program.prototypes fuel m
  | drop context => exact (m.beside_letGoAll _).prototypes

theorem owned (visit : Visit) (m : Machine) {ref : PrototypeRef} {place : Nat} {value : Value}
    (edits : .setConstant ref place value ∈ (visit.trace m).filterMap Point.edit?)
    : m.heap.owns value = true := by
  cases visit with
  | session context fuel program => exact program.owned fuel m edits
  | drop context => cases edits

theorem heap (visit : Visit) (m : Machine) : (visit.run m).last.heap.id = m.heap.id := by
  cases visit with
  | session context fuel program =>
      exact (program.linked fuel m).holds_last (P := fun _ now => now.heap.id = m.heap.id)
        (fun _ _ _ held moves _ => moves.heap.trans held) [] rfl (Point.opened_of_ne (by nofun) _)
  | drop context => exact (m.beside_letGoAll _).heap

end Visit

namespace Host

/-- A runtime as it is when a context enters it. -/
def entered? (host : Host) (ref : RuntimeRef) (context : ContextRef) : Option Machine :=
  host.runtimes[ref.index]?.map fun m => { m with prototypes := host.prototypes, context }

def visit (host : Host) (ref : RuntimeRef) (visit : Visit) : Visit.Outcome × Host :=
  host.run ref visit.context visit.run

/-- What visits come to, one after the other, and the host after them. -/
def visits (host : Host) : Itinerary → List Visit.Outcome × Host
  | [] => ([], host)
  | (ref, visit) :: rest =>
      let (outcome, after) := host.visit ref visit
      let (others, last) := after.visits rest
      (outcome :: others, last)

/-- The points that one visit comes by. -/
def stretch (host : Host) (ref : RuntimeRef) (visit : Visit) : List Point :=
  (host.entered? ref visit.context).elim [] visit.trace

/-- The points that visits come by. -/
def trace (host : Host) : Itinerary → List Point
  | [] => []
  | (ref, visit) :: rest =>
      host.stretch ref visit ++ (host.visit ref visit).2.trace rest

/-- Hosts that differ in nothing but one runtime. -/
structure Besides (host : Host) (a : RuntimeRef) (other : Host) : Prop where
  prototypes : other.prototypes = host.prototypes
  runtimes : ∀ b : RuntimeRef, b ≠ a → other.runtimes[b.index]? = host.runtimes[b.index]?

/-- What visits to one runtime leave to the others. -/
structure Apart (host : Host) (a : RuntimeRef) (log : List Point) (after : Host) : Prop where
  /-- Nothing but the runtime that is visited differs from what edits of prototypes have made. -/
  besides : { host with prototypes := host.prototypes.edited (log.filterMap Point.edit?) }.Besides a
    after
  /-- Whatever is done with other runtimes later on comes to what it would have come to if all that
  had been done were the edits.
  -/
  outcomes {later : Itinerary} (elsewhere : ∀ stop ∈ later, stop.1 ≠ a)
    : (after.visits later).1 = ({ host with prototypes := after.prototypes }.visits later).1
  /-- Without edits it comes to what it would have come to if nothing had been done. -/
  undisturbed {later : Itinerary} (elsewhere : ∀ stop ∈ later, stop.1 ≠ a)
    (unedited : ∀ point ∈ log, point.edit? = none)
    : (after.visits later).1 = (host.visits later).1
  /-- A prototype changes only where one of its constants is overwritten. -/
  kept {ref : PrototypeRef} (made : ref.index < host.prototypes.prototypes.size)
    (spared : ∀ place value, .setConstant ref place value ∉ log.filterMap Point.edit?)
    : after.prototypes.get ref = host.prototypes.get ref
  /-- The constants of a prototype and of those that it nests come to refer to nothing but what one of
  them is overwritten with.
  -/
  references {ref : PrototypeRef} {value : Value}
    (made : ref.index < host.prototypes.prototypes.size)
    (refers : value ∈ after.prototypes.references ref)
    : value ∈ host.prototypes.references ref
      ∨ ∃ changed place, host.prototypes.Nests ref changed
        ∧ .setConstant changed place value ∈ log.filterMap Point.edit?
  /-- What constants are overwritten with belongs to the heap of the runtime that is visited. -/
  owned {m : Machine} {ref : PrototypeRef} {place : Nat} {value : Value}
    (visited : host.runtimes[a.index]? = some m)
    (put : .setConstant ref place value ∈ log.filterMap Point.edit?)
    : m.heap.owns value = true

variable {host other : Host} {a b : RuntimeRef} {m : Machine}

-----------------------------------------------------------------------------------------
-- One visit
-----------------------------------------------------------------------------------------

/-- The host once a runtime is left. -/
def put (host : Host) (ref : RuntimeRef) (m : Machine) : Host where
  prototypes := m.prototypes
  runtimes := host.runtimes.setIfInBounds ref.index { m with prototypes := {} }

/-- Where there is no such runtime a visit comes to nothing. -/
theorem visit_of_missing (missing : host.runtimes[b.index]? = none) (visit : Visit)
    : host.visit b visit = (none, host) := by
  unfold Host.visit run
  rw [missing]

/-- What a visit comes to depends on nothing but the runtime as it is entered. -/
theorem visit_of_found (found : host.runtimes[b.index]? = some m) (visit : Visit)
    : ∃ entered : Machine, entered = { m with prototypes := host.prototypes, context := visit.context }
        ∧ host.entered? b visit.context = some entered
        ∧ host.visit b visit = (some (visit.result entered), host.put b (visit.run entered).last) := by
  refine ⟨_, rfl, ?_, ?_⟩
  · unfold entered?
    rw [found]
    rfl
  · unfold Host.visit run Visit.result
    rw [found]
    dsimp only
    cases visit.run { m with prototypes := host.prototypes, context := visit.context } <;> rfl

theorem get_put_self (found : host.runtimes[b.index]? = some m) (now : Machine)
    : (host.put b now).runtimes[b.index]? = some { now with prototypes := {} } := by
  obtain ⟨bound, -⟩ := Array.getElem?_eq_some_iff.mp found
  exact (Array.getElem?_setIfInBounds_self ..).trans (if_pos bound)

theorem get_put_of_ne (apart : b ≠ a) (now : Machine)
    : (host.put a now).runtimes[b.index]? = host.runtimes[b.index]? :=
  Array.getElem?_setIfInBounds_ne fun same => apart (congrArg RuntimeRef.mk same.symm)

namespace Besides

theorem refl (host : Host) (a : RuntimeRef) : host.Besides a host :=
  ⟨rfl, fun _ _ => rfl⟩

/-- Hosts that differ in one runtime alone are not told apart by a visit to another. -/
theorem visit (besides : host.Besides a other) (apart : b ≠ a) (visit : Visit)
    : (other.visit b visit).1 = (host.visit b visit).1
      ∧ (host.visit b visit).2.Besides a (other.visit b visit).2 := by
  have same := besides.runtimes b apart
  cases found : host.runtimes[b.index]? with
  | none =>
      rw [visit_of_missing found, visit_of_missing (same.trans found)]
      exact ⟨rfl, besides⟩
  | some m =>
      obtain ⟨entered, rfl, -, first⟩ := visit_of_found found visit
      obtain ⟨also, rfl, -, second⟩ := visit_of_found (same.trans found) visit
      rw [besides.prototypes] at second
      rw [first, second]
      refine ⟨rfl, rfl, fun c elsewhere => ?_⟩
      by_cases returned : c = b
      · subst returned
        exact (get_put_self (same.trans found) _).trans (get_put_self found _).symm
      · exact (get_put_of_ne returned _).trans
          ((besides.runtimes c elsewhere).trans (get_put_of_ne returned _).symm)

/-- Nor are they by any visits to others, by induction over these. -/
theorem visits (besides : host.Besides a other) {later : Itinerary}
    (elsewhere : ∀ stop ∈ later, stop.1 ≠ a)
    : (other.visits later).1 = (host.visits later).1 := by
  induction later generalizing host other with
  | nil => rfl
  | cons stop rest ih =>
      obtain ⟨outcome, besides⟩ := besides.visit (elsewhere stop (.head _)) stop.2
      have others := ih besides fun stop member => elsewhere stop (.tail _ member)
      exact congrArg₂ List.cons outcome others

end Besides

-----------------------------------------------------------------------------------------
-- Visits to one runtime
-----------------------------------------------------------------------------------------

theorem besides_visit (host : Host) (a : RuntimeRef) (visit : Visit)
    : Besides
        { host with
          prototypes := host.prototypes.edited ((host.stretch a visit).filterMap Point.edit?) }
        a (host.visit a visit).2 := by
  cases found : host.runtimes[a.index]? with
  | none =>
      have outside : host.stretch a visit = [] := by
        unfold stretch entered?
        rw [found]
        rfl
      rw [visit_of_missing found, outside]
      exact .refl host a
  | some m =>
      obtain ⟨entered, rfl, inside, visited⟩ := visit_of_found found visit
      unfold stretch
      rw [visited, inside]
      exact ⟨visit.prototypes _, fun _ apart => get_put_of_ne apart _⟩

theorem owned_visit (found : host.runtimes[a.index]? = some m) (visit : Visit)
    : (∃ now, (host.visit a visit).2.runtimes[a.index]? = some now ∧ now.heap.id = m.heap.id)
      ∧ ∀ {ref place value},
          .setConstant ref place value ∈ (host.stretch a visit).filterMap Point.edit?
          → m.heap.owns value = true := by
  obtain ⟨entered, rfl, inside, visited⟩ := visit_of_found found visit
  unfold stretch
  rw [visited, inside]
  exact ⟨⟨_, get_put_self found _, visit.heap _⟩, visit.owned _⟩

/-- Visits to a runtime touch no other and do to prototypes what their points tell, by induction over the
visits.
-/
theorem besides_visits (host : Host) {itinerary : Itinerary} (addressed : ∀ stop ∈ itinerary, stop.1 = a)
    : Besides
        { host with
          prototypes := host.prototypes.edited ((host.trace itinerary).filterMap Point.edit?) }
        a (host.visits itinerary).2 := by
  induction itinerary generalizing host with
  | nil => exact .refl host a
  | cons stop rest ih =>
      obtain ⟨b, visit⟩ := stop
      obtain rfl : b = a := addressed (b, visit) (.head _)
      let next : Host := (host.visit b visit).2
      have first := besides_visit host b visit
      have later
          : Besides
              { next with prototypes := next.prototypes.edited ((next.trace rest).filterMap Point.edit?) }
              b (next.visits rest).2 :=
        ih next fun stop member => addressed stop (.tail _ member)
      have points : host.trace ((b, visit) :: rest) = host.stretch b visit ++ next.trace rest := rfl
      rw [points, List.filterMap_append, PrototypeStore.edited_append]
      refine ⟨later.prototypes.trans ?_, fun c apart => ?_⟩
      · exact congrArg (PrototypeStore.edited · _) first.prototypes
      · exact (later.runtimes c apart).trans (first.runtimes c apart)

/-- What constants are overwritten with belongs to the heap of the runtime, by induction over the
visits.
-/
theorem owned_visits {itinerary : Itinerary} (addressed : ∀ stop ∈ itinerary, stop.1 = a)
    {ref : PrototypeRef} {place : Nat} {value : Value} (visited : host.runtimes[a.index]? = some m)
    (put : .setConstant ref place value ∈ (host.trace itinerary).filterMap Point.edit?)
    : m.heap.owns value = true := by
  induction itinerary generalizing host m with
  | nil => cases put
  | cons stop rest ih =>
      obtain ⟨b, visit⟩ := stop
      obtain rfl : b = a := addressed (b, visit) (.head _)
      obtain ⟨⟨now, found, same⟩, owned⟩ := owned_visit visited visit
      have points : host.trace ((b, visit) :: rest)
          = host.stretch b visit ++ (host.visit b visit).2.trace rest := rfl
      rw [points, List.filterMap_append] at put
      rcases List.mem_append.mp put with first | later
      · exact owned first
      · have owned := ih (fun stop member => addressed stop (.tail _ member)) found later
        unfold Heap.owns at owned ⊢
        rwa [same] at owned

/-- What is done with one runtime reaches the others by edits of prototypes alone. -/
theorem apart_visits (host : Host) (a : RuntimeRef) (itinerary : Itinerary)
    (addressed : ∀ stop ∈ itinerary, stop.1 = a)
    : host.Apart a (host.trace itinerary) (host.visits itinerary).2 where
  besides := host.besides_visits addressed
  outcomes elsewhere := by
    have besides := host.besides_visits addressed
    rw [besides.prototypes]
    exact besides.visits elsewhere
  undisturbed elsewhere unedited := by
    have besides := host.besides_visits addressed
    rw [List.filterMap_eq_nil_iff.mpr unedited] at besides
    exact besides.visits elsewhere
  kept made spared := by
    rw [(host.besides_visits addressed).prototypes]
    exact PrototypeStore.get_edited made spared
  references made refers := by
    rw [(host.besides_visits addressed).prototypes] at refers
    exact PrototypeStore.mem_references_of_edited refers made
  owned visited put := owned_visits addressed visited put

/-- The value that visits return if there is one visit and it returns nothing else. -/
private def sole? : List Visit.Outcome → Option Value
  | [some (.ok [value])] => some value
  | _ => none

private theorem of_sole? {outcomes : List Visit.Outcome} {value : Value}
    (other : value.kind ≠ .number) (returned : (sole? outcomes).any (· == value) = true)
    : outcomes = [some (.ok [value])] := by
  unfold sole? at returned
  split at returned
  · obtain rfl | ⟨x, y, -, rfl, -⟩ := Value.beq_cases returned
    · rfl
    · exact absurd rfl other
  · cases returned

/-- Two runtimes have loaded one prototype. The one overwrites its constant with a table of its own, and
the closure of the other returns that table.
-/
theorem apart_visits_shared
    : ∃ (host : Host) (a b : RuntimeRef) (itinerary later : Itinerary) (m : Machine)
        (table : TableRef),
        (∀ stop ∈ itinerary, stop.1 = a) ∧ (∀ stop ∈ later, stop.1 ≠ a)
          ∧ host.runtimes[b.index]? = some m ∧ m.heap.owns (.table table) = false
          ∧ (host.visits later).1 = [some (.ok [.boolean true])]
          ∧ ((host.visits itinerary).2.visits later).1 = [some (.ok [.table table])]
          ∧ host.Apart a (host.trace itinerary) (host.visits itinerary).2 := by
  let a : RuntimeRef := ⟨0⟩
  let b : RuntimeRef := ⟨1⟩
  let prototype : Prototype :=
    { constants := #[.boolean true], code := #[.abx .loadK 0 0, .abc .ret 0 2 0] }
  let loads : HostProgram := .ask (.load .runtime ⟨0⟩) fun _ => .finish []
  let writes : HostProgram :=
    .ask .newTable fun made => made.toOption.elim (.finish []) fun ref =>
      .ask (.setConstant (.closure ⟨⟨1, 0, 0⟩⟩) 1 (.table ref)) fun _ => .finish []
  let calls : HostProgram :=
    .call (.closure ⟨⟨2, 0, 0⟩⟩) [] fun results => results.toOption.elim (.finish []) .finish
  let made : Host := ((({} : Host).addRuntime {}).2.addRuntime {}).2
  let host : Host :=
    ((made.addPrototype prototype).2.visits
      [(a, .session ⟨0⟩ 1 loads), (b, .session ⟨0⟩ 1 loads)]).2
  let itinerary : Itinerary := [(a, .session ⟨0⟩ 1 writes)]
  let later : Itinerary := [(b, .session ⟨0⟩ 3 calls)]
  let table : TableRef := ⟨⟨1, 3, 0⟩⟩
  have addressed : ∀ stop ∈ itinerary, stop.1 = a := by simp [itinerary]
  have elsewhere : ∀ stop ∈ later, stop.1 ≠ a := by simp [later, a, b]
  have before : (sole? (host.visits later).1).any (· == .boolean true) = true := by
    decide +kernel
  have after : (sole? ((host.visits itinerary).2.visits later).1).any (· == .table table) = true := by
    decide +kernel
  have foreign : host.runtimes[b.index]?.any (fun m => !m.heap.owns (.table table)) = true := by
    decide +kernel
  have apart := host.apart_visits a itinerary addressed
  -- Nothing computes from here on.
  clear_value host itinerary later table
  obtain ⟨m, found, refused⟩ := (Option.any_eq_true ..).mp foreign
  have unowned : m.heap.owns (.table table) = false := (Bool.not_eq_true' _).mp refused
  have ran : (host.visits later).1 = [some (.ok [.boolean true])] :=
    of_sole? (by decide) before
  have also : ((host.visits itinerary).2.visits later).1 = [some (.ok [.table table])] :=
    of_sole? Kind.noConfusion after
  exact ⟨host, a, b, itinerary, later, m, table, addressed, elsewhere, found, unowned, ran, also,
    apart⟩

end Host
end HookMachine
