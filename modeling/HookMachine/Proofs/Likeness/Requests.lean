import HookMachine.Proofs.Hook.Installation
import HookMachine.Proofs.Likeness.Plans

/-!
Requests that ask the same of like objects, answered by the judgement of agreement. Apart from
these stand the requests that enter the machine anew and those that move what is retained.
-/

namespace HookMachine

/-- Whether a request retains a value for the one who makes it, gives one back, or collects. -/
def Request.moves : Request → Bool
  | .collect | .retain _ | .release _ | .hold _ | .letGo _ => true
  | _ => false

-----------------------------------------------------------------------------------------
-- Retained values
-----------------------------------------------------------------------------------------

namespace Machine

variable {m : Machine}

theorem collect_of_busy (busy : 0 < m.activeCalls) : m.collect = (none, m) :=
  if_pos busy

theorem collect_of_idle (idle : m.activeCalls = 0)
    : m.collect = (some (m.collectFrom [.table m.globals]).1, (m.collectFrom [.table m.globals]).2) :=
  if_neg (by omega)

end Machine

section

variable {m : Machine} (invoke : Invoke)

theorem answer_collect
    : Course.answer invoke .collect m = .ok (.ok m.collect.1) m.collect.2 :=
  rfl

theorem answer_retain (value : Value)
    : Course.answer invoke (.retain value) m
      = if m.heap.owns value then
          .ok (.ok (m.heap.retained.insert value).1)
            { m with heap.retained := (m.heap.retained.insert value).2 }
        else .ok (.error (.fault .foreignHandle)) m := by
  unfold Course.answer Run.mapError Run.attempt
  rcases owned : m.heap.owns value with _ | _
  · have fails : serve invoke (.retain value) m = _ :=
      Run.lift_error (Run.bind_error (Vm.checkOwner_of_foreign owned))
    simp [fails]
  · have retains : serve invoke (.retain value) m = _ :=
      Run.lift_ok (Run.bind_ok (Vm.checkOwner_of_owns owned))
    simp only [retains]
    rfl

theorem answer_hold (value : Value)
    : Course.answer invoke (.hold value) m
      = if m.heap.owns value then .ok (.ok (m.hold value).1) (m.hold value).2
        else .ok (.error (.fault .foreignHandle)) m := by
  unfold Course.answer Run.mapError Run.attempt
  rcases owned : m.heap.owns value with _ | _
  · have fails : serve invoke (.hold value) m = _ := Run.lift_error (Vm.hold_of_foreign owned)
    simp [fails]
  · have holds : serve invoke (.hold value) m = _ := Run.lift_ok (Vm.hold_of_owns owned)
    simp [holds]

end

theorem Matched.toOption {ε α β : Type} {related : α → β → Prop} {o : Except ε α}
    {p : Except ε β} (matched : Matched related o p)
    : Option.Rel related o.toOption p.toOption := by
  cases matched with
  | ok holds => exact .some holds
  | error => exact .none

namespace Likeness

variable {ι : Type} {L : Likeness ι} {i : ι}

/-- A request that only looks at the machine. -/
theorem view_agree {α β : Type} {related : α → β → Prop} {view : Machine → α}
    {view' : Machine → β}
    (views : ∀ {m n}, L.machines i m n → related (view m) (view' n))
    : L.Agree i (do return view (← get) : Action α) (do return view' (← get)) related :=
  .bind .get fun _ _ alike => .pure (views alike)

variable (regular : L.Regular)

include regular

/-- Plain requests are answered alike, since none of their answers tells of an object. -/
theorem servePlain_agree {r : Request} (plain : r.isPlain = true) (still : r.moves = false)
    (invoke invoke' : Invoke)
    : L.Agree i (serve invoke r) (serve invoke' r) Eq := by
  have lawful := regular.toLawful
  have reads {m n : Machine} (alike : L.machines i m n) := lawful.reads alike
  cases r with
  | guardCount => exact view_agree fun alike => (reads alike).guards
  | environmentCount => exact view_agree fun alike => (reads alike).environments.size
  | hookCount => exact view_agree fun alike => (reads alike).hooks.functions.length_eq
  | setEnabled index on => exact (setEnabled_agree lawful index on).lift
  | disconnect index => exact (regular.disconnect index).lift
  | connectionsOf signal => exact view_agree fun alike => (reads alike).connections.ofSignal signal
  | connection index => exact view_agree fun alike => (reads alike).connections.info? index
  | connectionCount => exact view_agree fun alike => (reads alike).connections.size
  | level => exact (level_agree lawful).lift
  | setLevel level => exact setLevel_agree lawful level
  | isTrusted => exact (isTrusted_agree lawful).lift
  | require operation required => exact require_agree lawful operation required
  | contextCount =>
      exact view_agree fun alike => congrArg IdentityRegistry.size (reads alike).identities
  | isAlive => exact view_agree fun alike => (reads alike).alive
  | collect | release => simp [Request.moves] at still
  | _ => simp [Request.isPlain] at plain

/-- Requests that neither enter the machine nor move what is retained. -/
theorem serve_agree {r s : Request} {answers : r.Answer → s.Answer → Prop}
    (requests : L.tie.Requests r s answers) (aside : r.enters = false) (still : r.moves = false)
    (invoke invoke' : Invoke)
    : L.Agree i (serve invoke r) (serve invoke' s) answers := by
  have lawful := regular.toLawful
  have reads {m n : Machine} (alike : L.machines i m n) := lawful.reads alike
  cases requests with
  | plain plain => exact servePlain_agree regular plain still invoke invoke'
  | newTable => exact (newTable_agree lawful).lift
  | assemble alike => exact (addPrototype_agree lawful alike).lift
  | instantiate known environment => exact (instantiate_agree lawful known environment).lift
  | load owner known =>
      exact (regular.find owner).bind fun _ _ tied =>
        (instantiate_agree lawful known (.some tied)).lift
  | contents tied => exact (table_agree lawful tied).lift
  | rawGet tied key => exact (rawGet_agree lawful tied key).lift
  | rawSet tied key value => exact (rawSet_agree lawful tied key value).lift
  | metatable value => exact (metatable_agree lawful value).lift
  | setMetatable tied metatable => exact (setMetatable_agree lawful tied metatable).lift
  | isReadOnly tied =>
      exact (table_agree lawful tied).lift.bind fun _ _ alike => .pure alike.readOnly
  | setReadOnly tied on => exact (setReadOnly_agree lawful tied on).lift
  | closureEnvironment tied =>
      exact (closure_agree lawful tied).lift.bind fun _ _ alike => .pure alike.environment
  | upvalueCount tied =>
      exact (closure_agree lawful tied).lift.bind fun _ _ alike =>
        .pure (congrArg Array.size alike.upvalues)
  | functionName f => exact (functionName_agree lawful f).lift
  | clone f => exact (clone_agree lawful f).lift
  | redirect tied target => exact (setRedirect_agree lawful tied target).lift
  | checkOwner value => exact (checkOwner_agree lawful value).lift
  | stats whole => exact view_agree fun alike => congrArg Heap.stats ((reads alike).heap whole)
  | objects whole tables =>
      exact view_agree fun alike => congrArg (Heap.objects · tables) ((reads alike).heap whole)
  | filter whole kind criteria =>
      exact view_agree fun alike => (reads alike).filter whole kind criteria
  | resolve slot => exact view_agree fun alike => ((reads alike).slots slot).toOption
  | retained => exact view_agree fun alike => (reads alike).retained
  | environment owner => exact regular.find owner
  | hook target replacement => exact regular.install target replacement
  | unhook target => exact regular.restore target
  | hookMetamethod object name replacement =>
      exact regular.installMetamethod name object replacement
  | unhookMetamethod object name => exact regular.restoreMetamethod name object
  | isHooked f => exact view_agree fun alike => (reads alike).hooks.isHooked f
  | isOwned f => exact view_agree fun alike => (reads alike).hooks.owns f
  | isRuntimeFunction f => exact isRuntimeFunction_agree lawful f
  | constant f position => exact constantAt_agree lawful f position
  | setConstant f position value => exact setConstant_agree lawful f position value
  | constants f => exact constants_agree lawful f
  | info f => exact (info_agree lawful f).mono fun same => Option.rel_eq ▸ same
  | nested f position activate => exact nested_agree lawful .none f position activate
  | digest f => exact (digest_agree lawful f).mono fun same => Option.rel_eq ▸ same
  | wrap f => exact wrap_agree lawful f
  | connect signal callback => exact regular.register signal callback
  | report name values =>
      have recalled := values.imp fun _ _ => Tie.Values.recalled
      exact .modify fun alike => lawful.report alike ⟨rfl, recalled⟩
  | call | index | assign | readShared | fire | fireSignal => simp [Request.enters] at aside
  | retain | hold | letGo => simp [Request.moves] at still

end Likeness
end HookMachine
