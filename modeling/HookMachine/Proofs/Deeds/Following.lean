import HookMachine.Proofs.Deeds.Runs

/-!
Operations that lead only where a relation between machines goes. Most operations touch neither
closures nor captured variables nor connections; a relation that takes no notice of anything else
holds between the machines before and after them, whatever they are.
-/

namespace HookMachine

open Run (Looks)

variable {ε ε' α β : Type}

-----------------------------------------------------------------------------------------
-- Relations and the judgement
-----------------------------------------------------------------------------------------

/-- A relation between machines that lets pass what is done to tables, natives, redirects, guards,
registries, levels and prototypes, any number of times.
-/
class Machine.Lenient (R : Machine → Machine → Prop) : Prop where
  refl (m : Machine) : R m m
  trans {m middle after : Machine} : R m middle → R middle after → R m after
  /-- What is no object, cell or connection may change. -/
  aside {m after : Machine}
    : after.heap.tables = m.heap.tables → after.heap.closures = m.heap.closures
      → after.heap.natives = m.heap.natives → after.cells = m.cells
      → after.connections = m.connections → R m after
  tables {m : Machine} {tables : Arena Table}
    : (∀ handle, m.heap.tables.contains handle = true → tables.contains handle = true)
      → R m { m with heap.tables := tables }
  natives {m : Machine} {natives : Arena Native}
    : (∀ handle, m.heap.natives.contains handle = true → natives.contains handle = true)
      → R m { m with heap.natives := natives }
  redirected {m : Machine} (handle : Handle) (redirect : Option Value)
    : R m { m with heap.closures := m.heap.closures.modify handle ({ · with redirect }) }

/-- An operation leads only where a relation goes. -/
structure Run.Follows (R : Machine → Machine → Prop) (x : Run ε α) : Prop where
  outcome : ∀ m : Machine, R m (x m).last

variable {R : Machine → Machine → Prop}

namespace Run.Follows

variable {x : Run ε α}

theorem modify {change : Machine → Machine} (led : ∀ m : Machine, R m (change m))
    : Follows R (modify change : Run ε Unit) :=
  ⟨led⟩

theorem modifyGet {change : Machine → α × Machine} (led : ∀ m : Machine, R m (change m).2)
    : Follows R (modifyGet change : Run ε α) :=
  ⟨led⟩

theorem mapError (g : ε → ε') (follows : Follows R x) : Follows R (Run.mapError g x) := by
  refine ⟨fun m => ?_⟩
  rw [Run.last_mapError]
  exact follows.outcome m

/-- Running code as part of an operation of the host. -/
theorem lift {x : Vm α} (follows : Follows R x) : Follows R (liftM x : Action α) :=
  follows.mapError _

/-- An operation of the host as part of running code. -/
theorem toVm {x : Action α} (follows : Follows R x) : Follows R x.toVm :=
  follows.mapError _

theorem attempt (follows : Follows R x) : Follows R (Run.attempt x) := by
  refine ⟨fun m => ?_⟩
  rw [Run.last_attempt]
  exact follows.outcome m

end Run.Follows

-----------------------------------------------------------------------------------------
-- Operations one after the other
-----------------------------------------------------------------------------------------

namespace Run.Follows

variable [IsPreorder Machine R] {x : Run ε α}

theorem pure (a : α) : Follows R (pure a : Run ε α) :=
  ⟨refl_of R⟩

theorem fail (error : ε) : Follows R (throw (.failed error) : Run ε α) :=
  ⟨refl_of R⟩

/-- A failure keeps what would follow it from being done. -/
theorem failThen (error : ε) (f : α → Run ε β)
    : Follows R ((throw (.failed error) : Run ε α) >>= f) :=
  ⟨refl_of R⟩

theorem looks (looks : Looks x) : Follows R x := by
  refine ⟨fun m => ?_⟩
  rw [looks.last]
  exact refl_of R m

theorem get : Follows R (get : Run ε Machine) :=
  ⟨refl_of R⟩

theorem andThen {f : α → Run ε β} (first : Follows R x) (rest : ∀ a, Follows R (f a))
    : Follows R (x >>= f) := by
  refine ⟨fun m => ?_⟩
  have before := first.outcome m
  rcases ran : x m with ⟨a, after⟩ | ⟨halt, after⟩ <;> rw [ran] at before
  · rw [Run.bind_ok ran]
    exact trans_of R before ((rest a).outcome after)
  · rw [Run.bind_error ran]
    exact before

theorem onHalt {undo : Machine → Machine} (follows : Follows R x)
    (undone : ∀ after : Machine, R after (undo after))
    : Follows R (Run.onHalt x undo) := by
  refine ⟨fun m => ?_⟩
  have before := follows.outcome m
  unfold Run.onHalt
  generalize x m = outcome at before ⊢
  cases outcome with
  | ok a after => exact before
  | error halt after => exact trans_of R before (undone after)

theorem forM {f : α → Run ε PUnit} (each : ∀ a, Follows R (f a)) (list : List α)
    : Follows R (list.forM f) := by
  induction list with
  | nil => exact pure PUnit.unit
  | cons a rest ih => exact (each a).andThen fun _ => ih

theorem mapM {f : α → Run ε β} (each : ∀ a, Follows R (f a)) (list : List α)
    : Follows R (list.mapM f) := by
  induction list with
  | nil => exact pure []
  | cons a rest ih =>
      rw [List.mapM_cons]
      exact (each a).andThen fun _ => ih.andThen fun _ => pure _

end Run.Follows

-----------------------------------------------------------------------------------------
-- Lenient relations
-----------------------------------------------------------------------------------------

variable [Machine.Lenient R]

instance : IsPreorder Machine R where
  refl := Machine.Lenient.refl
  trans _ _ _ := Machine.Lenient.trans

namespace Machine.Lenient

theorem letGo (m : Machine) (guard : Guard) : R m (m.letGo guard) :=
  aside rfl rfl rfl rfl rfl

theorem letGoAll (m : Machine) (guards : List Guard) : R m (m.letGoAll guards) := by
  unfold Machine.letGoAll
  induction guards generalizing m with
  | nil => exact refl m
  | cons guard rest ih => exact trans (letGo m guard) (ih _)

/-- Machines that differ in nothing but in what is counted and in natives that were added. -/
theorem of_near {m after : Machine} (near : m.Near after) : R m after := by
  obtain ⟨natives, activeCalls, steps, rfl⟩ := near.same
  have added : R m { m with heap.natives := natives } := Lenient.natives fun handle there =>
    have ⟨n, found⟩ := Arena.contains_iff.mp there
    Arena.contains_iff.mpr ⟨n, near.natives ⟨handle⟩ n found⟩
  exact trans added (aside rfl rfl rfl rfl rfl)

end Machine.Lenient

theorem Arena.contains_insert {arena : Arena α} {handle : Handle} (value : α)
    (there : arena.contains handle = true)
    : (arena.insert value).2.contains handle = true := by
  obtain ⟨held, found⟩ := contains_iff.mp there
  exact contains_iff.mpr ⟨held, get_insert_of_get value found⟩

open Machine (Lenient)

/-- What looks at the machine first goes on in the same machine. -/
theorem Machine.Lenient.look {x : Run ε α} {f : α → Run ε β} {m : Machine} (looks : Looks x)
    (rest : ∀ a, x m = .ok a m → R m (f a m).last)
    : R m ((x >>= f) m).last := by
  rcases looks.outcome m with ⟨a, ran⟩ | ⟨error, failed⟩
  · rw [Run.bind_ok ran]
    exact rest a ran
  · rw [Run.bind_error failed]
    exact refl m

theorem Machine.Lenient.look_lift {x : Vm α} {f : α → Action β} {m : Machine} (looks : Looks x)
    (rest : ∀ a, x m = .ok a m → R m (f a m).last)
    : R m (((liftM x : Action α) >>= f) m).last := by
  rcases looks.outcome m with ⟨a, ran⟩ | ⟨error, failed⟩
  · rw [Run.bind_ok (Run.lift_ok ran)]
    exact rest a ran
  · rw [Run.bind_error (Run.lift_error failed)]
    exact refl m

open Run (Follows)

theorem Action.refuse_follows (refusal : Refusal) : Follows R (Action.refuse refusal : Action α) :=
  .fail _

-----------------------------------------------------------------------------------------
-- Operations of running code
-----------------------------------------------------------------------------------------

namespace Vm

theorem newTable_follows : Follows R newTable :=
  .modifyGet fun _ => Lenient.tables fun _ => Arena.contains_insert _

theorem newNative_follows (n : Native) : Follows R (newNative n) :=
  .modifyGet fun _ => Lenient.natives fun _ => Arena.contains_insert n

theorem createNative_follows (n : Native) : Follows R (createNative n) :=
  .andThen (.forM (fun _ => .looks (checkOwner_looks _)) n.bound) fun _ => newNative_follows n

theorem updateTable_follows (ref : TableRef) (change : Table → Table)
    : Follows R (updateTable ref change) :=
  .andThen (.looks (table_looks ref)) fun _ => .modify fun _ => Lenient.tables fun _ there =>
    (Arena.contains_modify ..).trans there

theorem addPrototype_follows (p : Prototype) : Follows R (addPrototype p) :=
  .modifyGet fun _ => Lenient.aside rfl rfl rfl rfl rfl

theorem rawSet_follows (ref : TableRef) (key value : Value) : Follows R (rawSet ref key value) := by
  refine .andThen (.looks (checkKey_looks key)) fun _ => ?_
  refine .andThen (.looks (checkOwner_looks value)) fun _ => ?_
  refine .andThen (.looks (table_looks ref)) fun t => ?_
  split
  · exact .failThen _ _
  · exact updateTable_follows _ _

theorem setMetatable_follows (ref : TableRef) (metatable : Option TableRef)
    : Follows R (setMetatable ref metatable) := by
  unfold setMetatable
  split
  · exact .andThen (.looks (table_looks _)) fun _ => updateTable_follows _ _
  · exact updateTable_follows _ _

theorem setReadOnly_follows (ref : TableRef) (on : Bool) : Follows R (setReadOnly ref on) :=
  updateTable_follows _ _

/-- What is no closure is copied without a trace. -/
theorem clone_follows {f : Value} (apart : ∀ ref, f ≠ .closure ref) : Follows R (clone f) := by
  refine .andThen (.looks (checkOwner_looks f)) fun _ => ?_
  split
  · exact absurd rfl (apart _)
  · exact .andThen (.looks (native_looks _)) fun _ => (newNative_follows _).andThen fun _ => .pure _
  · exact .pure none

theorem setRedirect_follows (ref : ClosureRef) (target : Option Value)
    : Follows R (setRedirect ref target) := by
  have redirected : Follows R (updateClosure ref fun c => { c with redirect := target }) :=
    .andThen (.looks (closure_looks ref)) fun _ => .modify fun _ => Lenient.redirected _ target
  unfold setRedirect
  split
  · exact .andThen (.looks (checkOwner_looks _)) fun _ => redirected
  · exact redirected

theorem retain_follows (value : Value) : Follows R (retain value) :=
  .andThen (.looks (checkOwner_looks value)) fun _ => .modifyGet fun _ => Lenient.aside rfl rfl rfl rfl rfl

theorem release_follows (slot : Handle) : Follows R (release slot) :=
  .modifyGet fun _ => Lenient.aside rfl rfl rfl rfl rfl

theorem hold_follows (value : Value) : Follows R (hold value) :=
  .andThen (.looks (checkOwner_looks value)) fun _ => .modifyGet fun _ => Lenient.aside rfl rfl rfl rfl rfl

variable (frame : Frame)

theorem setList_follows (i : Instruction) : Follows R (setList frame i) := by
  unfold setList
  split
  · refine .andThen (.looks (table_looks _)) fun t => ?_
    split
    · exact .failThen _ _
    · exact (updateTable_follows _ _).andThen fun _ => .pure _
  · exact .fail _

/-- The instructions that neither reach a metamethod nor touch captured variables. -/
theorem execute_follows {invoke : Invoke} {op : Opcode} (aside : op ∉ fieldOperations)
    (unclosed : op ≠ .closure) (unset : op ≠ .setUpval) (i : Instruction)
    : Follows R (execute invoke frame op i) := by
  have operands (use : Value → Value → Vm Frame) (uses : ∀ left right, Follows R (use left right))
      : Follows R (do use (← operand frame i.b) (← operand frame i.c)) :=
    .andThen (.looks (operand_looks frame _)) fun left =>
      .andThen (.looks (operand_looks frame _)) fun right => uses left right
  have arithmetic (op : Opcode)
      : Follows R (do
          let left ← operand frame i.b
          let right ← operand frame i.c
          let a ← arithmeticNumber left
          let b ← arithmeticNumber right
          return frame.write i.a (.number (arithmetic op a b))) :=
    operands _ fun _ _ => .andThen (.looks (arithmeticNumber_looks _)) fun _ =>
      .andThen (.looks (arithmeticNumber_looks _)) fun _ => .pure _
  cases op with
  | getGlobal | setGlobal | getTable | setTable | self => simp [fieldOperations] at aside
  | move | not | loadBool | loadNil | test | vararg | close | call | tailCall | ret => exact .pure _
  | loadK => exact .andThen (.looks (constant_looks frame _)) fun _ => .pure _
  | getUpval =>
      exact .andThen (.looks (upvalue_looks frame _)) fun _ =>
        .andThen (.looks (readCell_looks _)) fun _ => .pure _
  | newTable => exact newTable_follows.andThen fun _ => .pure _
  | add | sub | mul | div | mod | pow => exact arithmetic _
  | unm => exact .andThen (.looks (arithmeticNumber_looks _)) fun _ => .pure _
  | len => exact .andThen (.looks (length_looks _)) fun _ => .pure _
  | concat => exact .andThen (.mapM (fun _ => .looks (concatenable_looks _)) _) fun _ => .pure _
  | jmp => exact .looks (jump_looks frame _)
  | eq => exact operands _ fun _ _ => .pure _
  | lt | le => exact operands _ fun _ _ => .andThen (.looks (order_looks _ _)) fun _ => .pure _
  | testSet =>
      unfold execute
      dsimp only
      split
      · exact .pure _
      · exact .pure _
  | forLoop =>
      refine .andThen (.looks (loopNumber_looks frame _)) fun step => ?_
      refine .andThen (.looks (loopNumber_looks frame _)) fun index => ?_
      refine .andThen (.looks (loopNumber_looks frame _)) fun limit => ?_
      dsimp only
      split <;> split
      · exact .looks (jump_looks _ _)
      · exact .pure _
      · exact .looks (jump_looks _ _)
      · exact .pure _
  | forPrep =>
      exact .andThen (.looks (loopNumber_looks frame _)) fun _ =>
        .andThen (.looks (loopNumber_looks frame _)) fun _ =>
          .andThen (.looks (loopNumber_looks frame _)) fun _ => .looks (jump_looks _ _)
  | setList => exact setList_follows frame i
  | setUpval => exact absurd rfl unset
  | closure => exact absurd rfl unclosed
  | tForLoop => exact .fail _

end Vm

-----------------------------------------------------------------------------------------
-- Levels, environments and hooks
-----------------------------------------------------------------------------------------

namespace Clearance

theorem level_follows : Follows R level :=
  .modifyGet fun _ => Lenient.aside rfl rfl rfl rfl rfl

theorem setLevel_follows (level : Int) : Follows R (setLevel level) := by
  unfold setLevel
  split
  · exact .failThen _ _
  · exact .modify fun _ => Lenient.aside rfl rfl rfl rfl rfl

theorem isTrusted_follows : Follows R isTrusted :=
  level_follows.andThen fun _ => .pure _

theorem require_follows (operation : String) (required : Nat)
    : Follows R (require operation required) := by
  refine level_follows.lift.andThen fun actual => ?_
  split
  · exact Action.refuse_follows _
  · exact .pure ()

theorem requirePrivilege_follows (operation : String) : Follows R (requirePrivilege operation) :=
  .andThen .get fun _ => require_follows _ _

end Clearance

namespace Environment

theorem tableOf_follows (guard : Guard) : Follows R (tableOf guard) := by
  unfold tableOf
  split
  · exact .pure _
  · exact Action.refuse_follows _

theorem fallback_follows : Follows R fallback := by
  refine .andThen .get fun m => ?_
  split
  · exact tableOf_follows _
  · refine Vm.newTable_follows.lift.andThen fun ref => ?_
    refine (Vm.hold_follows _).lift.andThen fun guard => .andThen .get fun now => ?_
    refine .andThen (.onHalt ?_ (Lenient.letGo · guard)) fun _ => ?_
    · exact (Vm.rawSet_follows _ _ _).lift.andThen fun _ => (Vm.setReadOnly_follows _ _).lift
    · exact .andThen (.modify fun _ => Lenient.aside rfl rfl rfl rfl rfl) fun _ => .pure _

theorem create_follows : Follows R create := by
  refine fallback_follows.andThen fun metatable => Vm.newTable_follows.lift.andThen fun ref => ?_
  refine (Vm.hold_follows _).lift.andThen fun guard => ?_
  exact .andThen (.onHalt (Vm.setMetatable_follows _ _).lift (Lenient.letGo · guard)) fun _ => .pure _

theorem recorded_follows (owner : EnvironmentOwner) : Follows R (recorded owner) := by
  refine .andThen .get fun m => ?_
  split
  · exact tableOf_follows _
  · refine create_follows.andThen fun guard => ?_
    exact .andThen (.modify fun _ => Lenient.aside rfl rfl rfl rfl rfl) fun _ => tableOf_follows guard

theorem find_follows (owner : EnvironmentOwner) : Follows R (find owner) := by
  cases owner with
  | runtime => exact recorded_follows _
  | script id | module id =>
      exact .andThen (.lift (.looks (Vm.checkOwner_looks id))) fun _ => recorded_follows _

theorem load_follows (owner : EnvironmentOwner) (prototype : PrototypeRef)
    (made : ∀ environment, Follows R (Vm.instantiate prototype environment))
    : Follows R (load owner prototype) :=
  (find_follows owner).andThen fun _ => (made _).lift

end Environment

namespace Hook

theorem letGoAll_follows (guards : List Guard)
    : Follows R (modify (·.letGoAll guards) : Action Unit) :=
  .modify (Lenient.letGoAll · guards)

theorem holdAmong_follows (value : Value) {undo : Machine → Machine}
    (undone : ∀ m : Machine, R m (undo m))
    : Follows R (Run.onHalt (Vm.hold value) undo : Action Guard) :=
  (Vm.hold_follows value).lift.onHalt undone

/-- A closure is copied when it is hooked. -/
theorem install_follows {target : Value} (copied : Follows R (Vm.clone target)) (replacement : Value)
    : Follows R (install target replacement) := by
  unfold install
  split
  · exact .pure none
  · refine .andThen (.looks (checkCallable_looks _ _)) fun _ => ?_
    split
    · exact .failThen _ _
    · refine copied.lift.andThen fun copy => ?_
      split
      · refine (Vm.hold_follows _).lift.andThen fun targetGuard => ?_
        refine (holdAmong_follows _ (Lenient.letGo · _)).andThen fun formerGuard => ?_
        refine (holdAmong_follows _ (Lenient.letGoAll · _)).andThen fun replacementGuard => ?_
        refine .andThen (.onHalt (Vm.setRedirect_follows _ _).lift (Lenient.letGoAll · _)) fun _ => ?_
        refine .andThen .get fun m => ?_
        refine .andThen (.modify fun _ => Lenient.aside rfl rfl rfl rfl rfl) fun _ => ?_
        dsimp only
        split
        · exact (letGoAll_follows _).andThen fun _ => .pure _
        · exact .pure _
      · exact Action.refuse_follows _
  · exact Action.refuse_follows _

theorem restore_follows (target : Value) : Follows R (restore target) := by
  unfold restore
  split
  · refine .andThen .get fun m => ?_
    split
    · exact .pure false
    · refine .andThen (.modify fun _ => Lenient.aside rfl rfl rfl rfl rfl) fun _ => ?_
      refine .andThen (.onHalt (Vm.setRedirect_follows _ _).lift (Lenient.letGoAll · _)) fun _ => ?_
      exact (letGoAll_follows _).andThen fun _ => .pure true
  · exact .pure false

theorem writeUnprotected_follows (ref : TableRef) (key value : Value)
    : Follows R (writeUnprotected ref key value) := by
  refine .andThen (.looks (Vm.table_looks ref)) fun t => ?_
  refine (Vm.setReadOnly_follows _ _).andThen fun _ => ?_
  refine .andThen (.attempt (Vm.rawSet_follows _ _ _)) fun written => ?_
  refine (Vm.setReadOnly_follows _ _).andThen fun _ => ?_
  split
  · exact .pure ()
  · exact .fail _

theorem takePrevious_follows (slot : MetamethodSlot) (existing : Value)
    : Follows R (takePrevious slot existing) := by
  refine .andThen .get fun m => ?_
  split
  · refine .andThen (.modify fun _ => Lenient.aside rfl rfl rfl rfl rfl) fun _ => ?_
    exact (letGoAll_follows _).andThen fun _ => .pure _
  · exact (Vm.hold_follows _).lift

/-- What a slot of a metatable holds is copied when the slot is hooked. -/
theorem installMetamethod_follows {object : Value} {name : String} {m : Machine}
    (copied : ∀ metatable existing, Vm.metatable object m = .ok (some metatable) m
      → Vm.rawGet metatable (.string name) m = .ok existing m → Follows R (Vm.clone existing))
    (replacement : Value)
    : R m (installMetamethod object name replacement m).last := by
  refine Lenient.look (checkCallable_looks _ _) fun _ _ => ?_
  refine Lenient.look_lift (Vm.metatable_looks object) fun found looked => ?_
  cases found with
  | none => exact Lenient.refl m
  | some metatable =>
      refine Lenient.look_lift (Vm.rawGet_looks _ _) fun existing read => ?_
      refine Follows.outcome ?_ m
      split
      · exact .failThen _ _
      · refine (copied metatable existing looked read).lift.andThen fun copy => ?_
        refine (takePrevious_follows _ _).andThen fun previous => ?_
        refine (holdAmong_follows _ (Lenient.letGo · _)).andThen fun formerGuard => ?_
        refine (holdAmong_follows _ (Lenient.letGoAll · _)).andThen fun replacementGuard => ?_
        refine .andThen ?_ fun _ => ?_
        · exact .onHalt (writeUnprotected_follows _ _ _).lift (Lenient.letGoAll · _)
        · exact .andThen (.modify fun _ => Lenient.aside rfl rfl rfl rfl rfl) fun _ => .pure _

theorem restoreMetamethod_follows (object : Value) (name : String)
    : Follows R (restoreMetamethod object name) := by
  refine .andThen (.lift (.looks (Vm.metatable_looks object))) fun found => ?_
  split
  · exact .pure false
  · refine .andThen .get fun m => ?_
    split
    · exact .pure false
    · refine .andThen (.modify fun _ => Lenient.aside rfl rfl rfl rfl rfl) fun _ => ?_
      refine .andThen (.onHalt (writeUnprotected_follows _ _ _).lift (Lenient.letGoAll · _)) fun _ => ?_
      exact (letGoAll_follows _).andThen fun _ => .pure true

end Hook

end HookMachine
