import HookMachine.Execution.Instruction
import HookMachine.Proofs.Collection.Exactness
import HookMachine.Proofs.Execution.Approximation
import HookMachine.Proofs.Execution.Outcomes

/-!
Operations that run no code. Each ends, executes no instruction, and leaves the configuration
and what natives do as it was.
-/

namespace HookMachine

/-- What stays the same while code runs: the configuration, and which functions of the host
natives may run.
-/
structure Regime where
  config : Config
  allows : HostFunction → Prop

/-- A native runs no function of the host but an allowed one. -/
def Native.Abides (allows : HostFunction → Prop) (n : Native) : Prop :=
  ∀ f, n.body = .host f → allows f

theorem Native.Abides.of_body {allows : HostFunction → Prop} {n other : Native}
    (abides : n.Abides allows) (same : other.body = n.body)
    : other.Abides allows :=
  fun f body => abides f (same ▸ body)

/-- The natives of a machine abide. -/
def Machine.Employs (m : Machine) (allows : HostFunction → Prop) : Prop :=
  ∀ {handle n}, m.heap.natives.get handle = .ok n → n.Abides allows

/-- Two machines match in all that a regime is about, and have counted as many instructions. -/
structure Machine.Matches (m after : Machine) : Prop where
  config : after.config = m.config
  steps : after.steps = m.steps
  natives : after.heap.natives = m.heap.natives

namespace Regime

variable {regime : Regime} {m middle after : Machine}

/-- A machine under a regime. -/
structure Governs (regime : Regime) (m : Machine) : Prop where
  config : m.config = regime.config
  employs : m.Employs regime.allows

/-- What a machine becomes while it executes no instruction. -/
structure Idles (regime : Regime) (m after : Machine) : Prop where
  governs : regime.Governs after
  steps : after.steps = m.steps

theorem Idles.refl (governs : regime.Governs m) : regime.Idles m m :=
  ⟨governs, rfl⟩

theorem Idles.trans (first : regime.Idles m middle) (second : regime.Idles middle after)
    : regime.Idles m after :=
  ⟨second.governs, second.steps.trans first.steps⟩

theorem Governs.idles (governs : regime.Governs m) (same : m.Matches after)
    : regime.Idles m after := by
  refine ⟨⟨same.config.trans governs.config, fun found => ?_⟩, same.steps⟩
  rw [same.natives] at found
  exact governs.employs found

end Regime

theorem Machine.Matches.trans {m middle after : Machine} (first : m.Matches middle)
    (second : middle.Matches after)
    : m.Matches after :=
  ⟨second.config.trans first.config, second.steps.trans first.steps,
    second.natives.trans first.natives⟩

theorem Machine.matches_letGo (m : Machine) (guard : Guard) : m.Matches (m.letGo guard) :=
  ⟨rfl, rfl, rfl⟩

theorem Machine.matches_letGoAll (m : Machine) (guards : List Guard)
    : m.Matches (m.letGoAll guards) := by
  unfold letGoAll
  induction guards generalizing m with
  | nil => exact ⟨rfl, rfl, rfl⟩
  | cons guard rest ih => exact (m.matches_letGo guard).trans (ih _)

-----------------------------------------------------------------------------------------
-- The judgement and its rules
-----------------------------------------------------------------------------------------

namespace Regime

variable {ε ε' α β : Type} {regime : Regime}

/-- What an operation comes to from `m` on that ends and executes no instruction: a result is
as `post` says.
-/
def Idled (regime : Regime) (m : Machine) (post : α → Prop)
    : EStateM.Result (Halt ε) Machine α → Prop
  | .ok a after => regime.Idles m after ∧ post a
  | .error (.failed _) after => regime.Idles m after
  | .error .outOfFuel _ => False

theorem Idled.settled {m : Machine} {post : α → Prop}
    {outcome : EStateM.Result (Halt ε) Machine α} (idled : regime.Idled m post outcome)
    : Run.Settled outcome := by
  rcases outcome with ⟨a, after⟩ | ⟨_ | _, after⟩
  · trivial
  · trivial
  · exact idled.elim

/-- An operation ends and executes no instruction, and a result of it is as `post` says. -/
structure Yields (regime : Regime) (x : Run ε α) (post : α → Prop) : Prop where
  outcome : ∀ m, regime.Governs m → regime.Idled m post (x m)

/-- An operation ends and executes no instruction. -/
abbrev Idle (regime : Regime) (x : Run ε α) : Prop :=
  regime.Yields x fun _ => True

namespace Yields

variable {x : Run ε α} {post better : α → Prop}

theorem pure {a : α} (holds : post a) : regime.Yields (pure a : Run ε α) post :=
  ⟨fun _ governs => ⟨.refl governs, holds⟩⟩

theorem fail (error : ε) : regime.Yields (throw (.failed error) : Run ε α) post :=
  ⟨fun _ governs => .refl governs⟩

/-- A failure keeps what would follow it from being done. -/
theorem failThen (error : ε) (f : α → Run ε β) {last : β → Prop}
    : regime.Yields ((throw (.failed error) : Run ε α) >>= f) last :=
  ⟨fun _ governs => .refl governs⟩

theorem get : regime.Idle (get : Run ε Machine) :=
  ⟨fun _ governs => ⟨.refl governs, trivial⟩⟩

theorem bind {f : α → Run ε β} {last : β → Prop} (first : regime.Yields x post)
    (rest : ∀ a, post a → regime.Yields (f a) last)
    : regime.Yields (x >>= f) last := by
  refine ⟨fun m governs => ?_⟩
  have first := first.outcome m governs
  change regime.Idled m last (EStateM.bind x f m)
  unfold EStateM.bind
  rcases ran : x m with ⟨a, middle⟩ | ⟨_ | _, middle⟩ <;> rw [ran] at first
  · have second := (rest a first.2).outcome middle first.1.governs
    rcases went : f a middle with ⟨b, after⟩ | ⟨_ | _, after⟩ <;> rw [went] at second <;>
      dsimp only <;> rw [went]
    · exact ⟨first.1.trans second.1, second.2⟩
    · exact first.1.trans second
    · exact second
  · exact first
  · exact first

/-- What comes second takes no notice of what the first results in. -/
theorem andThen {f : α → Run ε β} {last : β → Prop} (first : regime.Yields x post)
    (rest : ∀ a, regime.Yields (f a) last)
    : regime.Yields (x >>= f) last :=
  first.bind fun a _ => rest a

theorem mono (yields : regime.Yields x post) (implies : ∀ a, post a → better a)
    : regime.Yields x better := by
  refine ⟨fun m governs => ?_⟩
  have yields := yields.outcome m governs
  generalize x m = outcome at *
  rcases outcome with ⟨a, after⟩ | ⟨_ | _, after⟩
  · exact ⟨yields.1, implies a yields.2⟩
  · exact yields
  · exact yields

theorem mapError (g : ε → ε') (yields : regime.Yields x post)
    : regime.Yields (Run.mapError g x) post := by
  refine ⟨fun m governs => ?_⟩
  have yields := yields.outcome m governs
  unfold Run.mapError
  generalize x m = outcome at *
  rcases outcome with ⟨a, after⟩ | ⟨_ | _, after⟩ <;> exact yields

/-- Running code as part of an operation of the host. -/
theorem lift {x : Vm α} (yields : regime.Yields x post)
    : regime.Yields (liftM x : Action α) post :=
  yields.mapError _

/-- An operation of the host as part of running code. -/
theorem toVm {x : Action α} (yields : regime.Yields x post) : regime.Yields x.toVm post :=
  yields.mapError _

theorem attempt (yields : regime.Yields x post) : regime.Idle (Run.attempt x) := by
  refine ⟨fun m governs => ?_⟩
  have yields := yields.outcome m governs
  unfold Run.attempt
  generalize x m = outcome at *
  rcases outcome with ⟨a, after⟩ | ⟨_ | _, after⟩
  · exact ⟨yields.1, trivial⟩
  · exact ⟨yields, trivial⟩
  · exact yields

theorem onHalt {undo : Machine → Machine} (yields : regime.Idle x)
    (same : ∀ m : Machine, m.Matches (undo m))
    : regime.Idle (Run.onHalt x undo) := by
  refine ⟨fun m governs => ?_⟩
  have yields := yields.outcome m governs
  unfold Run.onHalt
  generalize x m = outcome at *
  rcases outcome with ⟨a, after⟩ | ⟨_ | _, after⟩
  · exact yields
  · exact yields.trans (yields.governs.idles (same after))
  · exact yields

theorem modify {change : Machine → Machine} (same : ∀ m : Machine, m.Matches (change m))
    : regime.Idle (modify change : Run ε Unit) :=
  ⟨fun m governs => ⟨governs.idles (same m), trivial⟩⟩

theorem modifyGet {change : Machine → α × Machine} (same : ∀ m : Machine, m.Matches (change m).2)
    : regime.Idle (modifyGet change : Run ε α) :=
  ⟨fun m governs => ⟨governs.idles (same m), trivial⟩⟩

theorem forM {f : α → Run ε PUnit} (each : ∀ a, regime.Idle (f a)) (list : List α)
    : regime.Idle (list.forM f) := by
  induction list with
  | nil => exact pure trivial
  | cons a rest ih => exact (each a).andThen fun _ => ih

theorem mapM {f : α → Run ε β} (each : ∀ a, regime.Idle (f a)) (list : List α)
    : regime.Idle (list.mapM f) := by
  induction list with
  | nil => exact pure trivial
  | cons a rest ih =>
      rw [List.mapM_cons]
      exact (each a).andThen fun _ => ih.andThen fun _ => pure trivial

end Yields
end Regime

variable {regime : Regime}

open Regime (Yields Idle)

theorem Action.refuse_yields {α : Type} {post : α → Prop} (refusal : Refusal)
    : regime.Yields (Action.refuse refusal : Action α) post :=
  .fail _

namespace Vm

-----------------------------------------------------------------------------------------
-- Looking at the machine
-----------------------------------------------------------------------------------------

theorem found_idle {α : Type} (result : Except Miss α) : regime.Idle (found result) := by
  cases result with
  | ok value => exact .pure trivial
  | error miss => exact .fail _

theorem table_idle (ref : TableRef) : regime.Idle (table ref) :=
  .andThen .get fun _ => found_idle _

theorem closure_idle (ref : ClosureRef) : regime.Idle (closure ref) :=
  .andThen .get fun _ => found_idle _

theorem native_yields (ref : NativeRef)
    : regime.Yields (native ref) fun n => n.Abides regime.allows := by
  refine ⟨fun m governs => ?_⟩
  rcases found : m.heap.natives.get ref.handle with miss | n
  · rw [native_of_miss found]
    exact .refl governs
  · rw [native_of_get found]
    exact ⟨.refl governs, governs.employs found⟩

theorem prototype_idle (ref : PrototypeRef) : regime.Idle (prototype ref) :=
  .andThen .get fun _ => .pure trivial

theorem readCell_idle (cell : CellRef) : regime.Idle (readCell cell) :=
  .andThen .get fun _ => .pure trivial

theorem checkOwner_idle (value : Value) : regime.Idle (checkOwner value) := by
  refine .andThen .get fun m => ?_
  split
  · exact .pure trivial
  · exact .fail _

theorem checkKey_idle (key : Value) : regime.Idle (checkKey key) := by
  unfold checkKey
  split
  · exact .fail _
  · split
    · exact .fail _
    · exact .pure trivial
  · exact .pure trivial

theorem rawGet_idle (ref : TableRef) (key : Value) : regime.Idle (rawGet ref key) :=
  (table_idle ref).andThen fun _ => .pure trivial

theorem metatable_idle (value : Value) : regime.Idle (metatable value) := by
  unfold metatable
  split
  · exact (table_idle _).andThen fun _ => .pure trivial
  · exact .pure trivial

theorem functionName_idle (f : Value) : regime.Idle (functionName f) := by
  unfold functionName
  split
  · exact (closure_idle _).andThen fun _ => (prototype_idle _).andThen fun _ => .pure trivial
  · exact (native_yields _).andThen fun _ => .pure trivial
  · exact .pure trivial

-----------------------------------------------------------------------------------------
-- Changing the machine
-----------------------------------------------------------------------------------------

theorem updateTable_idle (ref : TableRef) (change : Table → Table)
    : regime.Idle (updateTable ref change) :=
  (table_idle ref).andThen fun _ => .modify fun _ => ⟨rfl, rfl, rfl⟩

theorem updateClosure_idle (ref : ClosureRef) (change : Closure → Closure)
    : regime.Idle (updateClosure ref change) :=
  (closure_idle ref).andThen fun _ => .modify fun _ => ⟨rfl, rfl, rfl⟩

theorem newTable_idle : regime.Idle newTable :=
  .modifyGet fun _ => ⟨rfl, rfl, rfl⟩

theorem newClosure_idle (c : Closure) : regime.Idle (newClosure c) :=
  .modifyGet fun _ => ⟨rfl, rfl, rfl⟩

/-- The natives there are and a new one that abides all abide. -/
theorem newNative_idle {n : Native} (abides : n.Abides regime.allows)
    : regime.Idle (newNative n) := by
  refine ⟨fun m governs => ?_⟩
  refine ⟨⟨⟨governs.config, fun found => ?_⟩, rfl⟩, trivial⟩
  rcases Arena.get_insert.mp found with ⟨-, rfl⟩ | found
  · exact abides
  · exact governs.employs found

theorem createNative_idle {n : Native} (abides : n.Abides regime.allows)
    : regime.Idle (createNative n) :=
  (Yields.forM checkOwner_idle n.bound).andThen fun _ => newNative_idle abides

theorem newCell_idle (value : Value) : regime.Idle (newCell value) :=
  .modifyGet fun _ => ⟨rfl, rfl, rfl⟩

theorem writeCell_idle (cell : CellRef) (value : Value) : regime.Idle (writeCell cell value) :=
  .modify fun _ => ⟨rfl, rfl, rfl⟩

theorem addPrototype_idle (p : Prototype) : regime.Idle (addPrototype p) :=
  .modifyGet fun _ => ⟨rfl, rfl, rfl⟩

theorem newCells_idle (count : Nat) : regime.Idle (newCells count) := by
  induction count with
  | zero => exact .pure trivial
  | succ count ih => exact (newCell_idle _).andThen fun _ => ih.andThen fun _ => .pure trivial

theorem instantiate_idle (ref : PrototypeRef) (environment : Option TableRef)
    : regime.Idle (instantiate ref environment) :=
  (prototype_idle ref).andThen fun _ => (newCells_idle _).andThen fun _ =>
    .andThen .get fun _ => newClosure_idle _

theorem rawSet_idle (ref : TableRef) (key value : Value)
    : regime.Idle (rawSet ref key value) := by
  refine (checkKey_idle key).andThen fun _ => (checkOwner_idle value).andThen fun _ => ?_
  refine (table_idle ref).andThen fun t => ?_
  split
  · exact .failThen _ _
  · exact updateTable_idle ref _

theorem setMetatable_idle (ref : TableRef) (metatable : Option TableRef)
    : regime.Idle (setMetatable ref metatable) := by
  unfold setMetatable
  split
  · exact (table_idle _).andThen fun _ => updateTable_idle ref _
  · exact updateTable_idle ref _

theorem setReadOnly_idle (ref : TableRef) (on : Bool) : regime.Idle (setReadOnly ref on) :=
  updateTable_idle ref _

theorem clone_idle (f : Value) : regime.Idle (clone f) := by
  refine (checkOwner_idle f).andThen fun _ => ?_
  split
  · exact (closure_idle _).andThen fun _ => (newClosure_idle _).andThen fun _ => .pure trivial
  · refine (native_yields _).bind fun n abides => ?_
    refine .andThen (newNative_idle ?_) fun _ => .pure trivial
    exact abides.of_body rfl
  · exact .pure trivial

theorem setRedirect_idle (ref : ClosureRef) (target : Option Value)
    : regime.Idle (setRedirect ref target) := by
  unfold setRedirect
  split
  · exact (checkOwner_idle _).andThen fun _ => updateClosure_idle ref _
  · exact updateClosure_idle ref _

theorem retain_idle (value : Value) : regime.Idle (retain value) :=
  (checkOwner_idle value).andThen fun _ => .modifyGet fun _ => ⟨rfl, rfl, rfl⟩

theorem release_idle (slot : Handle) : regime.Idle (release slot) :=
  .modifyGet fun _ => ⟨rfl, rfl, rfl⟩

theorem hold_idle (value : Value) : regime.Idle (hold value) :=
  (checkOwner_idle value).andThen fun _ => .modifyGet fun _ => ⟨rfl, rfl, rfl⟩

end Vm
end HookMachine
