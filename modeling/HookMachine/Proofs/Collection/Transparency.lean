import HookMachine.Proofs.Likeness.Renaming
import HookMachine.Proofs.Soundness.Closed

/-!
Code cannot tell whether a collection has taken place. A call in a closed machine and the same call
after a collection come to the same, but for the handles of what is made from then on: slots that a
collection empties are filled again, so that new objects get other handles.
-/

namespace HookMachine

-----------------------------------------------------------------------------------------
-- What stays
-----------------------------------------------------------------------------------------

namespace Machine

/-- A collection keeps an object: the root globals or a retained value lead to it. -/
def Keeps (m : Machine) (object : ObjectRef) : Prop :=
  m.heap.Reachable m.surroundings [.table m.globals] object

/-- A collection keeps the object behind a value, if there is one. -/
def KeepsValue (m : Machine) (value : Value) : Prop :=
  ∀ object, value.object? = some object → m.Keeps object

/-- A machine remembers which object it was, but need not keep it alive. -/
inductive Recalls (m : Machine) : ObjectRef → Prop
  | metatable {entry} (member : entry ∈ m.hooks.metamethods) : m.Recalls (.table entry.1.1)
  | script {entry object} (member : entry ∈ m.environments.scripts)
    (names : entry.1.object? = some object)
    : m.Recalls object
  | module {entry object} (member : entry ∈ m.environments.modules)
    (names : entry.1.object? = some object)
    : m.Recalls object
  | owner {handle n method index table} (found : m.heap.natives.get handle = .ok n)
    (does : n.body = .method method index table)
    : m.Recalls (.table table)
  | reported {entry value object} (member : entry ∈ m.reports.toList) (listed : value ∈ entry.2)
    (names : value.object? = some object)
    : m.Recalls object

end Machine

namespace Heap

variable {heap after : Heap} {object : ObjectRef}

/-- Heaps whose slots were filled as often, whichever of them are vacant. -/
structure SameSlots (heap after : Heap) : Prop where
  tables : after.tables.heap = heap.tables.heap ∧ after.tables.generations = heap.tables.generations
  closures : after.closures.heap = heap.closures.heap
    ∧ after.closures.generations = heap.closures.generations
  natives : after.natives.heap = heap.natives.heap
    ∧ after.natives.generations = heap.natives.generations

theorem SameSlots.refl (heap : Heap) : heap.SameSlots heap :=
  ⟨⟨rfl, rfl⟩, ⟨rfl, rfl⟩, rfl, rfl⟩

theorem upcoming_inj {kind other : ArenaKind} {j k : Nat}
    : heap.upcoming kind j = heap.upcoming other k ↔ kind = other ∧ j = k := by
  cases kind <;> cases other <;>
    simp [upcoming, (Arena.upcoming_injective _).eq_iff]

end Heap

-----------------------------------------------------------------------------------------
-- The tie
-----------------------------------------------------------------------------------------

namespace Machine

variable {m n : Machine}

/-- The machine will make no object that it keeps or remembers, and neither will `n`. -/
def Apart (m n : Machine) : Prop :=
  ∀ object, m.Keeps object ∨ m.Recalls object
    → ∀ kind k, object ≠ m.heap.upcoming kind k ∧ object ≠ n.heap.upcoming kind k

/-- Objects that a collection keeps stand for themselves, and those that two machines make from now
on for each other in the order in which they are made.
-/
def Links (m n : Machine) (a b : ObjectRef) : Prop :=
  (m.Keeps a ∧ a = b) ∨ ∃ kind k, a = m.heap.upcoming kind k ∧ b = n.heap.upcoming kind k

/-- The tie of the objects that a collection keeps and of all that are made afterwards. -/
def renamed (m n : Machine) (apart : m.Apart n) : Tie where
  link := m.Links n
  recalls a b := m.Links n a b ∨ m.Recalls a ∧ a = b
  cell c := m.KeepsValue (m.cells.getD c.index .nil)
  prototype p := ∀ value ∈ m.prototypes.references p, m.KeepsValue value
  shift := 0
  linked := .inl
  apart {a b c d} recalled link := by
    have old {a c d : ObjectRef} (known : m.Keeps a ∨ m.Recalls a) (link : m.Links n c d)
        : a = c ↔ a = d := by
      rcases link with ⟨-, rfl⟩ | ⟨kind, k, rfl, rfl⟩
      · exact Iff.rfl
      · exact iff_of_false (apart a known kind k).1 (apart a known kind k).2
    rcases recalled with (⟨kept, rfl⟩ | ⟨kind, j, rfl, rfl⟩) | ⟨remembered, rfl⟩
    · exact old (.inl kept) link
    · rcases link with ⟨kept, rfl⟩ | ⟨other, k, rfl, rfl⟩
      · have distinct := apart c (.inl kept) kind j
        exact iff_of_false distinct.1.symm distinct.2.symm
      · rw [Heap.upcoming_inj, Heap.upcoming_inj]
    · exact old (.inr remembered) link

theorem renames (apart : m.Apart n) : (m.renamed n apart).Renames m n where
  made kind k := .inr ⟨kind, k, rfl, rfl⟩
  cell {c} new object names := by
    rw [Array.getD_eq_getD_getElem?, Array.getElem?_eq_none new] at names
    cases names
  prototype {p} new value member := by
    have empty : m.prototypes.get p = {} := by
      rw [PrototypeStore.get, Array.getD_eq_getD_getElem?, Array.getElem?_eq_none new]
      rfl
    obtain ⟨target, nests, constant, -⟩ := PrototypeStore.mem_references.mp member
    cases nests with
    | self => simp [empty] at constant
    | deeper nested => simp [empty] at nested
  shift := rfl
  narrow whole := by
    -- A reference into another heap is neither kept nor made.
    let foreign : Handle := ⟨m.heap.tables.heap + 1, 0, 0⟩
    rcases whole.object (.table ⟨foreign⟩) with ⟨kept, -⟩ | ⟨kind, k, made, -⟩
    · obtain ⟨_, found⟩ := Arena.contains_iff.mp (Heap.Reachable.isLive kept)
      exact Nat.succ_ne_self _ (Arena.heap_of_get found)
    · cases kind with
      | tables =>
          have same : foreign = m.heap.tables.upcoming k := by
            simpa [Heap.upcoming] using made
          have heap := (congrArg Handle.heap same).trans (Arena.heap_upcoming m.heap.tables k)
          exact Nat.succ_ne_self _ heap
      | closures | natives => cases made

-----------------------------------------------------------------------------------------
-- A machine and what a collection makes of it
-----------------------------------------------------------------------------------------

section

variable {own : List Guard} (sound : Rules.lax.Sound own m) (closed : m.Closed)

include closed in
/-- What is kept refers to what is kept. -/
theorem keepsValue_of_refers {source : ObjectRef} {value : Value} (kept : m.Keeps source)
    (edge : m.heap.Refers m.surroundings source value)
    : m.KeepsValue value :=
  fun object names => .step kept edge names (closed.edges edge object names)

variable (apart : m.Apart n)

end

-----------------------------------------------------------------------------------------
-- Calls
-----------------------------------------------------------------------------------------

/-- The machine after a collection between calls. -/
def swept (m : Machine) : Machine :=
  (m.collectFrom [.table m.globals]).2

end Machine

-----------------------------------------------------------------------------------------
-- Outcomes
-----------------------------------------------------------------------------------------

namespace Tie

variable (t : Tie)

/-- Machines to which runs from two others have led show the same but for names, and all that was made
in either run has its counterpart in the other.
-/
structure Leaves (start other m n : Machine) : Prop where
  shown : t.Machines m n
  first {a} : m.heap.isLive a = true → start.heap.isLive a = true ∨ ∃ b, t.link a b
  second {b} : n.heap.isLive b = true → other.heap.isLive b = true ∨ ∃ a, t.link a b

/-- Calls from two machines come to the same but for names. -/
inductive Ends (start other : Machine)
    : EStateM.Result (Halt Fault) Machine (List Value)
      → EStateM.Result (Halt Fault) Machine (List Value) → Prop
  | ok {xs ys m n} (results : t.Lists xs ys) (left : t.Leaves start other m n)
    : Ends start other (.ok xs m) (.ok ys n)
  | error (halt) {m n} (left : t.Leaves start other m n)
    : Ends start other (.error halt m) (.error halt n)

end Tie

/-- What a closed machine has in a global of the root is kept. -/
theorem Machine.keepsValue_of_global {m : Machine} (closed : m.Closed) {x : Table}
    {key value : Value} (found : m.heap.tables.get m.globals.handle = .ok x)
    (member : (key, value) ∈ x.hash)
    : m.KeepsValue value :=
  keepsValue_of_refers closed (.root (.head _) rfl (Arena.contains_iff.mpr ⟨x, found⟩))
    (.content found member)

-----------------------------------------------------------------------------------------
-- Collections and calls that are computed
-----------------------------------------------------------------------------------------

/-- The native that a call of a value comes down to, if it does. -/
private def Machine.native? (m : Machine) (f : Value) : Option Native :=
  match Vm.resolve f m with
  | .ok (.native ref) after => (after.heap.natives.get ref.handle).toOption
  | _ => none

/-- The only native that may be called at a point, if one may. -/
private def Point.native? (point : Point) : Option Native :=
  match point.mark with
  | .called call => point.machine.native? call.f
  | .executes frame i => point.machine.native? (frame.read i.a)
  | _ => none

private theorem Point.native?_of_calls {point : Point} {n : Native} (calls : point.Calls n)
    : point.native? = some n := by
  have of_reaches {m : Machine} {f : Value} (reaches : m.Reaches f n) : m.native? f = some n := by
    obtain ⟨ref, after, resolved, found⟩ := reaches
    simp [Machine.native?, resolved, found, Except.toOption]
  obtain ⟨mark, m⟩ := point
  cases mark with
  | called => exact of_reaches calls
  | executes => exact of_reaches calls.2
  | _ => exact calls.elim

/-- Whether a native belongs to the script surface. -/
private def Native.isScript (n : Native) : Bool :=
  match n.body with
  | .script _ => true
  | _ => false

/-- Whether a native belongs to the script surface and lists no objects. -/
private def Native.isQuiet (n : Native) : Bool :=
  match n.body with
  | .script g => !g.surveys
  | _ => false

/-- A closed machine between entries, whose natives all belong to the script surface, has `f` in a
global, and a call of `f` lists no objects.
-/
private structure Machine.Ready (m : Machine) (fuel : Nat) (f : Value) : Prop where
  closed : m.Closed
  idle : m.activeCalls = 0
  scripts : m.heap.natives.toList.all (·.2.isScript) = true
  listed
    : m.heap.tables.holds m.globals.handle
        (fun x => x.hash.any fun entry => entry.2.object? = f.object?) = true
  quiet
    : ((callTrace fuel { f, arguments := [], caller := none, depth := 0 } m.enter).all
        fun point => point.native?.all Native.isQuiet) = true

private instance (m : Machine) (fuel : Nat) (f : Value) : Decidable (m.Ready fuel f) :=
  decidable_of_iff (_ ∧ _ ∧ _ ∧ _ ∧ _)
    ⟨fun ⟨closed, idle, scripts, listed, quiet⟩ => ⟨closed, idle, scripts, listed, quiet⟩,
      fun ready => ⟨ready.closed, ready.idle, ready.scripts, ready.listed, ready.quiet⟩⟩

/-- Whether nothing was hooked, put on record or reported. -/
private def Machine.isBlank (m : Machine) : Bool :=
  m.hooks.metamethods.isEmpty && m.environments.scripts.isEmpty && m.environments.modules.isEmpty
    && m.reports.isEmpty

namespace Machine.Ready

variable {m : Machine} {fuel : Nat} {f : Value}

private theorem keeps (ready : m.Ready fuel f) : m.KeepsValue f := by
  obtain ⟨x, found, entries⟩ := Arena.holds_iff.mp ready.listed
  obtain ⟨⟨key, value⟩, member, same⟩ := List.any_eq_true.mp entries
  intro object names
  exact keepsValue_of_global ready.closed found member object ((of_decide_eq_true same).trans names)

private theorem unsurveyed (ready : m.Ready fuel f)
    : ∀ point ∈ callTrace fuel { f, arguments := [], caller := none, depth := 0 } m.enter,
        ∀ n, point.Calls n → ¬n.Surveys := by
  rintro point member n calls ⟨g, does, surveys⟩
  have test := List.all_eq_true.mp ready.quiet point member
  rw [Point.native?_of_calls calls] at test
  simp [Native.isQuiet, does, surveys] at test

end Machine.Ready

namespace Situation

end Situation

namespace Situation

end Situation

end HookMachine
