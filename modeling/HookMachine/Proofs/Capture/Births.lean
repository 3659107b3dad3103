import HookMachine.Proofs.Arena.Upcoming
import HookMachine.Proofs.Capture.Lineage
import HookMachine.Proofs.Connections.Points
import HookMachine.Proofs.Deeds.Activations

/-!
How closures come to be that no activation makes. A copy has the cells of what is copied, a closure over
a prototype has new ones, and whatever else happens at a point leaves cells and those of closures alone.
-/

namespace HookMachine

open Machine (Lenient)
open Run (Looks Follows)

variable {α β : Type} {m middle after first : Machine} {source : Option ClosureRef}

namespace Machine

/-- The cells of a closure that is there. -/
def upvalues? (m : Machine) (ref : ClosureRef) : Option (Array CellRef) :=
  ((m.heap.closures.get ref.handle).map (·.upvalues)).toOption

/-- Captured variables are as they were, and closures have the cells that they had. -/
structure Upholds (m after : Machine) : Prop where
  cells : after.cells = m.cells
  upvalues : after.upvalues? = m.upvalues?

/-- The cells that are made next, so many of them. -/
def upcoming (m : Machine) (count : Nat) : List CellRef :=
  (List.range' m.cells.size count).map CellRef.mk

/-- At most one closure is made: a copy if there is something to copy, else one over a prototype. -/
inductive Begets (source : Option ClosureRef) (m : Machine) : Machine → Prop
  | upholds {after : Machine} (upholds : m.Upholds after) : Begets source m after
  | copies {after : Machine} {ref copy : ClosureRef} {upvalues : Array CellRef}
    (copied : source = some ref) (held : m.upvalues? ref = some upvalues)
    (unborn : m.upvalues? copy = none) (cells : after.cells = m.cells)
    (born : after.upvalues? = Function.update m.upvalues? copy (some upvalues))
    : Begets source m after
  | founds {after : Machine} {ref : ClosureRef} {count : Nat} (original : source = none)
    (unborn : m.upvalues? ref = none)
    (cells : after.cells = m.cells ++ Array.replicate count .nil)
    (born : after.upvalues? = Function.update m.upvalues? ref (some (m.upcoming count).toArray))
    : Begets source m after

/-- Any number of closures are made. -/
def Breeds (source : Option ClosureRef) : Machine → Machine → Prop :=
  Relation.ReflTransGen (Begets source)

theorem upvalues?_eq_none {ref : ClosureRef}
    : m.upvalues? ref = none ↔ m.heap.isLive (.closure ref) = false := by
  change _ ↔ m.heap.closures.contains ref.handle = false
  unfold upvalues? Arena.contains
  cases m.heap.closures.get ref.handle <;> simp [Except.map, Except.toOption]

theorem upvalues?_of_get {ref : ClosureRef} {c : Closure}
    (found : m.heap.closures.get ref.handle = .ok c)
    : m.upvalues? ref = some c.upvalues := by
  unfold upvalues?
  rw [found]
  rfl

namespace Upholds

/-- Only what is neither cell nor closure changes. -/
theorem of_same (cells : after.cells = m.cells) (closures : after.heap.closures = m.heap.closures)
    : m.Upholds after := by
  refine ⟨cells, funext fun ref => ?_⟩
  unfold upvalues?
  rw [closures]

theorem refl (m : Machine) : m.Upholds m :=
  ⟨rfl, rfl⟩

theorem trans (first : m.Upholds middle) (rest : middle.Upholds after) : m.Upholds after :=
  ⟨rest.cells.trans first.cells, rest.upvalues.trans first.upvalues⟩

theorem redirected (handle : Handle) (redirect : Option Value)
    : m.Upholds { m with heap.closures := m.heap.closures.modify handle ({ · with redirect }) } := by
  refine ⟨rfl, funext fun ref => ?_⟩
  unfold upvalues?
  rw [Arena.get_modify_eq]
  split
  · cases m.heap.closures.get ref.handle <;> rfl
  · rfl

end Upholds

instance : Lenient Upholds where
  refl := .refl
  trans := .trans
  aside _ closures _ cells _ := .of_same cells closures
  tables _ := .of_same rfl rfl
  natives _ := .of_same rfl rfl
  redirected handle redirect := .redirected handle redirect

instance : Lenient (Breeds source) where
  refl _ := .refl
  trans := .trans
  aside _ closures _ cells _ := .single (.upholds (.of_same cells closures))
  tables _ := .single (.upholds (.of_same rfl rfl))
  natives _ := .single (.upholds (.of_same rfl rfl))
  redirected handle redirect := .single (.upholds (.redirected handle redirect))

theorem breeds_wires : Wires (Breeds source) :=
  fun _ _ => .single (.upholds (.of_same rfl rfl))

end Machine

open Machine (Breeds)

-----------------------------------------------------------------------------------------
-- Making closures
-----------------------------------------------------------------------------------------

namespace Vm

/-- The closure that a machine is given next. -/
theorem newClosure_born (c : Closure) (m : Machine)
    : ∃ ref : ClosureRef, newClosure c m = .ok ref (newClosure c m).last
        ∧ m.upvalues? ref = none ∧ (newClosure c m).last.cells = m.cells
        ∧ (newClosure c m).last.upvalues? = Function.update m.upvalues? ref (some c.upvalues) := by
  refine ⟨⟨(m.heap.closures.insert c).1⟩, rfl, ?_, rfl, funext fun ref => ?_⟩
  · unfold Machine.upvalues?
    cases found : m.heap.closures.get (m.heap.closures.insert c).1 with
    | ok held => exact (Arena.get_insert_fresh _ _ _ found).elim
    | error miss => rfl
  · change (((m.heap.closures.insert c).2.get ref.handle).map (·.upvalues)).toOption = _
    rw [Arena.get_insert_eq]
    by_cases same : ref.handle = (m.heap.closures.insert c).1
    · obtain rfl : ref = ⟨(m.heap.closures.insert c).1⟩ := congrArg ClosureRef.mk same
      rw [if_pos rfl, Function.update_self]
      rfl
    · rw [if_neg same, Function.update_of_ne fun is => same (congrArg ClosureRef.handle is)]
      rfl

/-- By induction over how many cells are made. -/
theorem newCells_eq (count : Nat) (m : Machine)
    : newCells count m
      = .ok (m.upcoming count) { m with cells := m.cells ++ Array.replicate count .nil } := by
  induction count generalizing m with
  | zero =>
      rw [Array.replicate_zero, Array.append_empty]
      rfl
  | succ count ih =>
      refine (Run.bind_ok (rfl : newCell .nil m = .ok _ _)).trans ?_
      refine (Run.bind_ok (ih _)).trans ?_
      refine congrArg₂ EStateM.Result.ok ?_ ?_
      · simp [Machine.upcoming, List.range'_succ]
      · simp [Array.replicate_succ', ← Array.append_assoc]

theorem instantiate_breeds (ref : PrototypeRef) (environment : Option TableRef)
    : Follows (Breeds none) (instantiate ref environment) := by
  refine ⟨fun m => Lenient.look (prototype_looks ref) fun p _ => ?_⟩
  rw [Run.bind_ok (newCells_eq _ m)]
  let founded : Machine := { m with cells := m.cells ++ Array.replicate p.upvalues.toNat .nil }
  obtain ⟨made, -, unborn, cells, born⟩ := newClosure_born
    { prototype := ref, upvalues := (m.upcoming _).toArray, environment := environment.getD m.globals }
    founded
  exact .single (.founds rfl unborn cells born)

/-- A copy of a closure has its cells. -/
theorem clone_breeds (f : Value) : Follows (Breeds f.closure?) (clone f) := by
  cases f with
  | closure ref =>
      refine ⟨fun m => Lenient.look (checkOwner_looks _) fun _ _ => ?_⟩
      refine Lenient.look (closure_looks ref) fun c found => ?_
      obtain ⟨made, ran, unborn, cells, born⟩ := newClosure_born { c with redirect := none, marked := false } m
      rw [Run.bind_ok ran]
      exact .single (.copies rfl (Machine.upvalues?_of_get (closure_ok found).1) unborn cells born)
  | _ => exact clone_follows nofun

end Vm

-----------------------------------------------------------------------------------------
-- Functions of scripts that copy
-----------------------------------------------------------------------------------------

/-- What becomes of a result changes nothing. -/
theorem Run.last_return {ε : Type} (x : Run ε α) (f : α → β) (m : Machine)
    : ((x >>= fun a => pure (f a)) m).last = (x m).last := by
  rcases ran : x m with ⟨a, after⟩ | ⟨halt, after⟩
  · rw [Run.bind_ok ran]
    rfl
  · rw [Run.bind_error ran]
    rfl

/-- What is read from the metatable of an object. -/
theorem Machine.handler?_of_reads {object existing : Value} {name : String} {metatable : TableRef}
    (looked : Vm.metatable object m = .ok (some metatable) m)
    (read : Vm.rawGet metatable (.string name) m = .ok existing m)
    : m.handler? object name = some existing := by
  cases object with
  | table ref =>
      obtain ⟨t, now, found, ends⟩ := Run.of_bind_ok looked
      obtain rfl := (Vm.table_looks ref).ok found
      obtain ⟨held, last, there, gives⟩ := Run.of_bind_ok read
      cases gives
      have attached : t.metatable = some metatable := (EStateM.Result.ok.inj ends).1
      simp [handler?, Vm.get_of_table found, Vm.get_of_table there, attached, Except.toOption]
  | _ => cases looked

theorem Machine.handler?_congr (same : after.heap.tables = m.heap.tables) (object : Value)
    (name : String)
    : after.handler? object name = m.handler? object name := by
  unfold handler?
  rw [same]

/-- A hooked metamethod is copied. -/
theorem Hook.installMetamethod_breeds (object : Value) (name : String) (replacement : Value)
    (m : Machine)
    : Breeds ((m.handler? object name).bind Value.closure?) m
        (installMetamethod object name replacement m).last := by
  refine installMetamethod_follows (fun metatable existing looked read => ?_) replacement
  rw [Machine.handler?_of_reads looked read]
  exact Vm.clone_breeds existing

/-- What a function of scripts copies is told by its arguments. -/
theorem Script.run_breeds (nested : Nested) (caller : Option ClosureRef) {f : ScriptFunction}
    (arguments : List Value) (copies : f.copies = true) (m : Machine)
    : Breeds ((f.copied? m arguments).bind Value.closure?) m
        (run nested caller f arguments m).last := by
  cases f with
  | cloneFunction => exact (single_follows (Vm.clone_breeds _).lift _).outcome m
  | installHook =>
      refine Follows.outcome ((Clearance.requirePrivilege_follows _).andThen fun _ => ?_) m
      exact single_follows (Hook.install_follows (Vm.clone_breeds _) _) _
  | installMetamethodHook =>
      have observed : m.Upholds m.observed := .of_same rfl rfl
      change Breeds _ m ((Clearance.requirePrivilege _ >>= fun _ => _) m).last
      by_cases privileged : m.Privileged
      · rw [Run.bind_ok (Clearance.requirePrivilege_of_privileged _ privileged)]
        refine .head (.upholds observed) ?_
        unfold ScriptFunction.copied? Script.string
        dsimp only
        cases Script.argument arguments 1 with
        | string name =>
            have hooked := Hook.installMetamethod_breeds (Script.argument arguments 0) name
              (Script.argument arguments 2) m.observed
            rw [Machine.handler?_congr rfl, ← Run.last_return _ fun former => [former]] at hooked
            exact hooked
        | _ => exact .refl
      · rw [Run.bind_error (Clearance.requirePrivilege_of_not _ privileged)]
        exact .single (.upholds observed)
  | _ => cases copies

-----------------------------------------------------------------------------------------
-- Points that capture and assign nothing
-----------------------------------------------------------------------------------------

theorem NativeBody.copied?_of_not {body : NativeBody} (uncopied : body.copies = false)
    (arguments : List Value)
    : body.copied? m arguments = none := by
  cases body with
  | script f => cases f <;> first | rfl | cases uncopied
  | _ => rfl

/-- A native copies what its arguments tell, if its runtime is alive. -/
theorem Plan.body_breeds (caller : Option ClosureRef) (d : Nat) {body : NativeBody}
    {arguments : List Value} {source : Option ClosureRef}
    (told : source = (if m.alive then body.copied? m arguments else none).bind Value.closure?)
    : Breeds source m (Plan.body arguments caller d body m).head := by
  cases copies : body.copies with
  | false =>
      rw [NativeBody.copied?_of_not copies, ite_self] at told
      subst told
      have follows : (Plan.body arguments caller d body).Follows (Breeds none) :=
        body_follows Vm.instantiate_breeds copies fun _ => Machine.breeds_wires
      exact follows.head m
  | true =>
      cases body with
      | script f =>
          refine Course.follow_look .get fun now looked => ?_
          cases looked
          split
          · rename_i alive
            rw [if_pos alive] at told
            have quiet : f ≠ .fireSignal := by
              rintro rfl
              cases copies
            have copied := Script.run_breeds noCall caller arguments copies m
            rw [← Run.last_mapError Failure.toFault] at copied
            rw [script_of_quiet quiet, told]
            exact copied
          · exact .refl
      | _ => cases copies

theorem Request.errand_breeds {request : Request} (uncollected : request ≠ .collect) (m : Machine)
    : Breeds ((request.copied? m).bind Value.closure?) m (request.errand m).head := by
  cases copies : request.copies with
  | false =>
      have none : request.copied? m = none := by
        cases request <;> first | rfl | cases copies
      rw [none]
      exact errand_follows Vm.instantiate_breeds uncollected copies (fun _ => Machine.breeds_wires) m
  | true =>
      cases request with
      | clone f => exact (Vm.clone_breeds f).lift.outcome m
      | hook target replacement =>
          exact (Hook.install_follows (Vm.clone_breeds target) replacement).outcome m
      | hookMetamethod object name replacement =>
          exact Hook.installMetamethod_breeds object name replacement m
      | _ => cases copies

namespace Point

variable {point : Point}

/-- An instruction that captures a register or assigns a variable is executed at a point. -/
def Captures (point : Point) : Prop :=
  ∃ frame i, point.mark = .executes frame i
    ∧ (i.operation? = some .closure ∨ i.operation? = some .setUpval)

theorem copied?_of_passes (unasked : ∀ request, point.mark ≠ .asks request) {n : Native}
    {arguments : List Value} (passes : point.Passes n arguments)
    : point.copied? = (if point.machine.alive then n.body.copied? point.machine arguments
        else none).bind Value.closure? := by
  unfold copied?
  rw [tells?_of_passes unasked passes]

theorem copied?_of_apart (unasked : ∀ request, point.mark ≠ .asks request)
    (apart : ∀ n arguments, ¬point.Passes n arguments)
    : point.copied? = none := by
  unfold copied?
  rw [tells?_of_apart unasked apart]
  rfl

/-- Where nothing is captured, closures are made as the point tells. -/
theorem Does.breeds (does : point.Does first) (uncollected : point.mark ≠ .asks .collect)
    (uncaptured : ¬point.Captures)
    : Breeds point.copied? point.machine first := by
  obtain ⟨mark, m⟩ := point
  cases mark with
  | called call =>
      cases does
      exact Plan.start_follows fun n arguments passes =>
        Plan.body_breeds _ _ (copied?_of_passes (fun _ => Mark.noConfusion) passes)
  | executes frame i =>
      obtain ⟨resume, callers, rfl⟩ := does
      refine Plan.advance_follows ⟨frame, resume⟩ callers (fun _ op operation reaches => ?_)
        fun n arguments passes => Plan.body_breeds _ _ (copied?_of_passes (fun _ => Mark.noConfusion) passes)
      refine (uncaptured ⟨frame, i, rfl, ?_⟩).elim
      rcases reaches with rfl | rfl
      · exact .inl operation
      · exact .inr operation
  | asks request =>
      cases does
      exact Request.errand_breeds (fun collects => uncollected (collects ▸ rfl)) m
  | entered =>
      rcases does with rfl | ⟨object, key, value, rfl⟩
      · exact .refl
      · exact (Plan.assign_follows object key value).head m
  | failed | answered | left =>
      cases does
      exact .refl

end Point
end HookMachine
