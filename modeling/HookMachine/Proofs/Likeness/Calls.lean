import HookMachine.Proofs.Likeness.Plans

/-!
Natives, instructions and calls on like arguments go alike. Where a limit of the first run is
reached earlier than that of the second, the first escapes.
-/

namespace HookMachine

/-- One redirect is followed after the other while some are left. -/
theorem Vm.followRedirects_eq (limit : Nat) (f : Value)
    : followRedirects limit f = match f with
        | .closure ref => do
            match (← closure ref).redirect with
            | none => return .closure ref
            | some next =>
                if limit = 0 then fail .redirectChain else followRedirects (limit - 1) next
        | f => pure f := by
  cases f with
  | closure ref =>
      rw [followRedirects]
      refine congrArg _ (funext fun c => ?_)
      cases c.redirect <;> cases limit <;> rfl
  | nil | boolean | number | string | table | native => cases limit <;> rfl

/-- The count of instructions with one more, where the limit allows one more. -/
def Limits.count (limits : Limits) (steps : Nat) : Option Nat :=
  if limits.instructions = 0 then some steps
  else if steps < limits.instructions then some (steps + 1) else none

theorem Vm.charge_eq (m : Machine)
    : charge m = match m.config.limits.count m.steps with
        | some steps => .ok () { m with steps }
        | none => .error (.failed .instructionLimit) m := by
  rcases Nat.eq_zero_or_pos m.config.limits.instructions with free | limited
  · rw [Limits.count, if_pos free]
    refine (Run.bind_get ..).trans ?_
    dsimp only
    rw [if_neg (by omega)]
    rfl
  · rw [Limits.count, if_neg (by omega)]
    refine (Run.bind_get ..).trans ?_
    dsimp only
    rw [if_pos limited]
    by_cases left : m.steps < m.config.limits.instructions
    · rw [if_pos left, if_neg (by omega)]
      rfl
    · rw [if_neg left, if_pos (by omega)]
      rfl

namespace Likeness

variable {ι : Type} (L : Likeness ι)

/-- A likeness by which the limits of like machines are the same, or the first run escapes where
its limit is reached.
-/
structure Paced : Prop extends L.Regular where
  depth {i m n} : L.machines i m n
    → m.config.limits.callDepth + L.tie.shift = n.config.limits.callDepth
      ∨ m.config.limits.callDepth + L.tie.shift ≤ n.config.limits.callDepth
        ∧ L.escapes .stackOverflow
  redirects {i m n} : L.machines i m n
    → m.config.limits.redirectDepth = n.config.limits.redirectDepth
      ∨ m.config.limits.redirectDepth ≤ n.config.limits.redirectDepth
        ∧ L.escapes .redirectChain
  charge {i m n} : L.machines i m n → L.Follows i Eq (Vm.charge m) (Vm.charge n)

variable {L} {i : ι} {asks : Prop} {v w : Value} {xs ys : List Value}
  {c d : Option ClosureRef} {depth deeper : Nat}

-----------------------------------------------------------------------------------------
-- Connections and functions of scripts
-----------------------------------------------------------------------------------------

section

variable (regular : L.Regular) (arguments : L.tie.Lists xs ys)
  (caller : Option.Rel L.tie.ClosureRefs c d) (depths : deeper = depth + L.tie.shift)

include regular arguments caller depths

theorem fire_concur (index : Nat)
    : L.Concur asks (Plan.fire xs c depth index) (Plan.fire ys d deeper index) Eq := by
  refine .get fun {i m n} alike => ?_
  have callback := (regular.reads alike).connections.callback? index
  generalize ConnectionRegistry.callback? m.connections index = o at *
  generalize ConnectionRegistry.callback? n.connections index = p at *
  cases callback with
  | none => exact .pure rfl
  | some callback =>
      exact (Concur.tryCall callback arguments caller depths).andThen fun _ _ => .pure rfl

theorem fireAll_concur (indices : List Nat)
    : L.Concur asks (Plan.fireAll xs c depth indices) (Plan.fireAll ys d deeper indices) Eq := by
  induction indices with
  | nil => exact .pure rfl
  | cons index rest ih =>
      refine (fire_concur regular arguments caller depths index).bind fun ran _ same => ?_
      subst same
      exact ih.bind fun others _ same => same ▸ .pure rfl

theorem fireSignal_concur (signal : String)
    : L.Concur asks (Plan.fireSignal xs c depth signal) (Plan.fireSignal ys d deeper signal)
        Eq := by
  refine .get fun {i m n} alike => ?_
  rw [(regular.reads alike).connections.ofSignal signal]
  exact fireAll_concur regular arguments caller depths _

theorem script_concur {f : ScriptFunction} (quiet : f.surveys = true → L.tie.Whole)
    : L.Concur asks (Plan.script c depth f xs) (Plan.script d deeper f ys) L.tie.Lists := by
  have silently (silent : f ≠ .fireSignal)
      : L.Concur asks (liftM (Script.run Plan.noCall c f xs).toVm : Plan (List Value))
          (liftM (Script.run Plan.noCall d f ys).toVm) L.tie.Lists :=
    .lift (run_agree regular _ _ caller quiet silent arguments).toVm
  cases f with
  | fireSignal =>
      refine (Concur.lift (string_agree arguments 0 _).toVm).bind fun signal _ same => ?_
      subst same
      refine (fireSignal_concur regular (List.forall₂_drop 1 arguments) caller depths
        signal).bind fun count _ same => ?_
      exact same ▸ .pure (.cons (.ofNat _) .nil)
  | _ => exact silently (by simp)

/-- A method of a connection handle takes the handle alike from the front of its arguments. -/
theorem method_concur (method : ConnectionMethod) (index : Nat) {a b : TableRef}
    (owner : L.tie.recalls (.table a) (.table b))
    : L.Concur asks (Plan.method c depth method index a xs)
        (Plan.method d deeper method index b ys) L.tie.Lists := by
  have boolean {p q : Bool} (same : p = q) : L.tie.Lists [.boolean p] [.boolean q] :=
    same ▸ .cons (.boolean p) .nil
  have fired {xs ys : List Value} (arguments : L.tie.Lists xs ys)
      : L.Concur asks (do return [.boolean (← Plan.fire xs c depth index)])
          (do return [.boolean (← Plan.fire ys d deeper index)]) L.tie.Lists :=
    (fire_concur regular arguments caller depths index).bind fun _ _ same =>
      .pure (boolean same)
  cases method with
  | enable =>
      exact .lift ((setEnabled_agree regular.toLawful index true).bind fun _ _ same =>
        .pure (boolean same))
  | disable =>
      exact .lift ((setEnabled_agree regular.toLawful index false).bind fun _ _ same =>
        .pure (boolean same))
  | disconnect =>
      exact .lift ((regular.disconnect index).bind fun _ _ same => .pure (boolean same))
  | fire =>
      cases arguments with
      | nil => exact fired .nil
      | @cons v w rest others head tail =>
          have all : L.tie.Lists (v :: rest) (w :: others) := .cons head tail
          cases head with
          | nil | boolean | number | string | closure | native => exact fired all
          | @table x y tied =>
              have same : x = a ↔ y = b := by
                have apart := L.tie.apart owner tied
                simp only [ObjectRef.table.injEq] at apart
                exact ⟨fun same => (apart.mp same.symm).symm,
                  fun same => (apart.mpr same.symm).symm⟩
              change L.Concur asks
                (do return [.boolean (← Plan.fire (if x = a then rest else _) c depth index)])
                (do return [.boolean (← Plan.fire (if y = b then others else _) d deeper index)])
                L.tie.Lists
              by_cases itself : x = a
              · rw [if_pos itself, if_pos (same.mp itself)]
                exact fired tail
              · rw [if_neg itself, if_neg (mt same.mpr itself)]
                exact fired all

end

-----------------------------------------------------------------------------------------
-- Natives
-----------------------------------------------------------------------------------------

section

variable (regular : L.Regular) (arguments : L.tie.Lists xs ys)
  (caller : Option.Rel L.tie.ClosureRefs c d) (depths : deeper = depth + L.tie.shift)

include regular caller depths

/-- Programs of the host that are alike go alike, by induction over how they are alike. -/
theorem program_concur {p q : HostProgram} (alike : L.tie.Programs p q)
    : L.Concur True (Plan.program c depth p) (Plan.program d deeper q) L.tie.Lists := by
  induction alike with
  | finish results => exact .pure results
  | fail fault => exact .fail fault
  | call f arguments _ ih =>
      exact (Concur.tryCall f arguments caller depths).bind fun _ _ outcome => ih _ _ outcome
  | ask request _ ih => exact (Concur.ask trivial request).bind fun _ _ reply => ih _ _ reply
  | @create name body body' runs bound bound' kept next next' _ _ ih =>
      have native : L.tie.Natives { name, body := .host body, bound }
          { name, body := .host body', bound := bound' } :=
        ⟨rfl, .host runs, kept, rfl⟩
      refine (Concur.lift ?_).bind fun _ _ made => ih _ _ made
      exact ((createNative_agree regular.toLawful native).lift.attempt).mapError _

include arguments

theorem body_concur {p q : NativeBody} (alike : L.tie.Bodies p q)
    (quiet : ∀ g, p = .script g → g.surveys = true → L.tie.Whole)
    : L.Concur True (Plan.body xs c depth p) (Plan.body ys d deeper q) L.tie.Lists := by
  have nested : deeper + 1 = depth + 1 + L.tie.shift := by omega
  cases alike with
  | script f =>
      refine .get fun alike => ?_
      rw [(regular.reads alike).alive]
      split
      · exact script_concur regular arguments caller nested (quiet f rfl)
      · exact .failThen _ _ _
  | method method index owner =>
      refine .get fun alike => ?_
      rw [(regular.reads alike).alive]
      split
      · exact method_concur regular arguments caller nested method index owner
      · exact .failThen _ _ _
  | wrapper inner => exact .call inner arguments caller nested
  | host alike => exact program_concur regular caller nested (alike caller arguments)

/-- A call of what is no closure, in a machine where it lists no objects of the heap. -/
theorem callOther_alike (target : L.tie.Values v w) {m n : Machine} (alike : L.machines i m n)
    (quiet : ∀ ref n, v = .native ref → m.heap.natives.get ref.handle = .ok n → n.Surveys
      → L.tie.Whole)
    : L.Alike True L.tie.Lists i (Plan.callOther v xs c depth m)
        (Plan.callOther w ys d deeper n) := by
  have lawful := regular.toLawful
  cases target with
  | nil | boolean | number | string | closure => exact .ends (.error _ alike)
  | native tied =>
      refine .first (.of_agree (native_agree lawful tied) alike) fun ran natives alike => ?_
      have found := Vm.get_of_native ran
      exact (body_concur regular arguments caller depths natives.body
        fun g performs surveys => quiet _ _ rfl found ⟨g, performs, surveys⟩).course alike
  | @table a b tied =>
      have called : L.Concur True (Plan.callOther (.table a) xs c depth)
          (Plan.callOther (.table b) ys d deeper) L.tie.Lists := by
        refine (Concur.lift (metamethod_agree lawful (.table tied) _)).bind
          fun _ _ handler => ?_
        rw [handler.isFunction]
        split
        · exact .call handler (.cons (.table tied) arguments) caller (by omega)
        · exact .failThen _ _ _
      exact called.course alike

end

-----------------------------------------------------------------------------------------
-- Calls
-----------------------------------------------------------------------------------------

section

variable (paced : L.Paced) (arguments : L.tie.Lists xs ys)
  (caller : Option.Rel L.tie.ClosureRefs c d) (depths : deeper = depth + L.tie.shift)

include paced

include depths in
theorem checkDepth_follows {m n : Machine} (alike : L.machines i m n)
    : L.Follows i Eq (Vm.checkDepth depth m) (Vm.checkDepth deeper n) := by
  unfold Vm.checkDepth
  rw [Run.bind_get, Run.bind_get]
  by_cases beyond : m.config.limits.callDepth < depth
  · rw [if_pos beyond]
    rcases paced.depth alike with same | ⟨_, escapes⟩
    · rw [if_pos (by omega)]
      exact .alike (.error _ alike)
    · exact .escapes escapes _ _
  · rw [if_neg beyond, if_neg (by have := paced.depth alike; omega)]
    exact .alike (.ok alike rfl)

/-- Redirects are followed alike, by induction over how many may be followed in the first run. -/
theorem followRedirects_follows {limit other : Nat}
    (limits : limit = other ∨ limit ≤ other ∧ L.escapes .redirectChain) (f : L.tie.Values v w)
    {m n : Machine} (alike : L.machines i m n)
    : L.Follows i L.tie.Values (Vm.followRedirects limit v m) (Vm.followRedirects other w n) := by
  induction limit using Nat.strongRecOn generalizing other v w m n with
  | ind limit ih =>
      rw [Vm.followRedirects_eq, Vm.followRedirects_eq]
      cases f with
      | nil => exact .alike (.ok alike .nil)
      | boolean b => exact .alike (.ok alike (.boolean b))
      | number x => exact .alike (.ok alike (.number x))
      | string s => exact .alike (.ok alike (.string s))
      | table tied => exact .alike (.ok alike (.table tied))
      | native tied => exact .alike (.ok alike (.native tied))
      | closure tied =>
          have found := Follows.of_agree (closure_agree paced.toLawful tied) alike
          refine found.bind fun {x y _ _} closures alike => ?_
          have redirect := closures.redirect
          generalize x.redirect = o at *
          generalize y.redirect = p at *
          cases redirect with
          | none => exact .alike (.ok alike (.closure tied))
          | some next =>
              dsimp only
              by_cases spent : limit = 0
              · rw [if_pos spent]
                rcases limits with same | ⟨_, escapes⟩
                · rw [if_pos (same ▸ spent)]
                  exact .alike (.error _ alike)
                · exact .escapes escapes _ _
              · rw [if_neg spent, if_neg (by omega)]
                exact ih (limit - 1) (by omega) (limits.imp (by omega) (.imp (by omega) id)) next
                  alike

theorem resolve_follows (f : L.tie.Values v w) {m n : Machine} (alike : L.machines i m n)
    : L.Follows i L.tie.Values (Vm.resolve v m) (Vm.resolve w n) := by
  unfold Vm.resolve
  rw [Run.bind_get, Run.bind_get]
  exact followRedirects_follows paced (paced.redirects alike) f alike

include arguments caller depths

/-- What follows when a value is called, in a machine where the call comes down to no survey of the
heap.
-/
theorem dispatch_alike {γ δ : Type} {last : γ → δ → Prop} (f : L.tie.Values v w) {m n : Machine}
    (alike : L.machines i m n)
    (quiet : ∀ n, m.Reaches v n → n.Surveys → L.tie.Whole)
    {opened : ClosureRef → Plan γ} {opened' : ClosureRef → Plan δ}
    (opens : ∀ a b, L.tie.ClosureRefs a b → L.Concur True (opened a) (opened' b) last)
    {rest : List Value → Plan γ} {rest' : List Value → Plan δ}
    (delivers : ∀ rs ss, L.tie.Lists rs ss → L.Concur True (rest rs) (rest' ss) last)
    : L.Alike True last i
        ((do
          Vm.checkDepth depth
          match ← Vm.resolve v with
          | .closure ref => opened ref
          | target => rest (← Plan.callOther target xs c depth) : Plan γ) m)
        ((do
          Vm.checkDepth deeper
          match ← Vm.resolve w with
          | .closure ref => opened' ref
          | target => rest' (← Plan.callOther target ys d deeper) : Plan δ) n) := by
  refine .first (checkDepth_follows paced depths alike) fun {_ _ after _} ran _ still => ?_
  cases Vm.checkDepth_ok ran
  refine .first (resolve_follows paced f still) fun {a b after _} ran target alike => ?_
  have others {v w : Value} (target : L.tie.Values v w)
      (quiet : ∀ ref n, v = .native ref → after.heap.natives.get ref.handle = .ok n → n.Surveys
        → L.tie.Whole)
      : L.Alike True last i ((do rest (← Plan.callOther v xs c depth)) after)
          ((do rest' (← Plan.callOther w ys d deeper)) _) :=
    (callOther_alike paced.toRegular arguments caller depths target alike quiet).bind
      fun results alike => (delivers _ _ results).course alike
  cases target with
  | closure tied => exact (opens _ _ tied).course alike
  | nil => exact others .nil (by simp)
  | boolean b => exact others (.boolean b) (by simp)
  | number x => exact others (.number x) (by simp)
  | string s => exact others (.string s) (by simp)
  | table tied => exact others (.table tied) (by simp)
  | native tied =>
      refine others (.native tied) fun ref n same found => ?_
      cases same
      exact quiet n ⟨_, after, ran, found⟩

end

/-- A call begins alike, in a machine where it comes down to no survey of the heap. -/
theorem start_alike (paced : L.Paced) {c d : Invocation} (calls : L.tie.Invocations c d)
    {m n : Machine} (alike : L.machines i m n)
    (quiet : ∀ n, Point.Calls ⟨.called c, m⟩ n → n.Surveys → L.tie.Whole)
    : L.Alike True (Sum.LiftRel L.tie.Lists L.tie.Frames) i (Plan.start c m)
        (Plan.start d n) :=
  dispatch_alike paced calls.arguments calls.caller calls.depth calls.f alike quiet
    (fun _ _ tied =>
      (Concur.lift (openFrame_agree paced.toLawful tied calls.arguments calls.depth)).bind
        fun _ _ frames => .pure (.inr frames))
    (fun _ _ results => .pure (.inl results))

-----------------------------------------------------------------------------------------
-- Instructions
-----------------------------------------------------------------------------------------

section

variable (paced : L.Paced) {f g : Frame} (frames : L.tie.Frames f g)

include paced frames

theorem execute_concur (op : Opcode) (instruction : Instruction)
    : L.Concur asks (Plan.execute f op instruction) (Plan.execute g op instruction)
        L.tie.Frames := by
  have lawful := paced.toLawful
  have aside (aside : op ∉ Vm.fieldOperations)
      : L.Concur asks
          (liftM (Vm.execute (fun f arguments _ _ => Plan.noCall f arguments) f op instruction)
            : Plan Frame)
          (liftM (Vm.execute (fun f arguments _ _ => Plan.noCall f arguments) g op instruction))
          L.tie.Frames :=
    .lift (execute_agree lawful frames aside instruction)
  cases op with
  | getGlobal =>
      refine (Concur.lift (constant_agree lawful frames _)).bind fun _ _ key => ?_
      exact (index_concur lawful frames.depth (.table frames.environment) key).bind
        fun _ _ value => .pure (frames.write _ value)
  | setGlobal =>
      refine (Concur.lift (constant_agree lawful frames _)).bind fun _ _ key => ?_
      exact (assign_concur lawful frames.depth (.table frames.environment) key
        (frames.registers _)).andThen fun _ _ => .pure frames
  | getTable =>
      refine (Concur.lift (operand_agree lawful frames _)).bind fun _ _ key => ?_
      exact (index_concur lawful frames.depth (frames.registers _) key).bind
        fun _ _ value => .pure (frames.write _ value)
  | setTable =>
      refine (Concur.lift (operand_agree lawful frames _)).bind fun _ _ key => ?_
      refine (Concur.lift (operand_agree lawful frames _)).bind fun _ _ value => ?_
      exact (assign_concur lawful frames.depth (frames.registers _) key value).andThen
        fun _ _ => .pure frames
  | self =>
      refine (Concur.lift (operand_agree lawful frames _)).bind fun _ _ key => ?_
      exact (index_concur lawful frames.depth (frames.registers _) key).bind fun _ _ method =>
        .pure ((frames.write _ (frames.registers _)).write _ method)
  | _ => exact aside (by decide)

end

/-- A call that an activation makes goes alike: a closure is activated on top of like stacks, and
the results of anything else go back to where it was called.
-/
theorem descend_alike (paced : L.Paced) {f g : Frame} (frames : L.tie.Frames f g)
    (callee : L.tie.Values v w) (arguments : L.tie.Lists xs ys) (resume : Resume)
    {callers others : List Layer} (below : callers.Forall₂ L.tie.Layers others) {m n : Machine}
    (alike : L.machines i m n)
    (quiet : ∀ n, m.Reaches v n → n.Surveys → L.tie.Whole)
    : L.Alike True L.tie.Outputs i
        ((do
          Vm.checkDepth (f.depth + 1)
          match ← Vm.resolve v with
          | .closure ref =>
              return .inr (⟨← Vm.openFrame ref xs (f.depth + 1), resume⟩, callers)
          | target =>
              let results ← Plan.callOther target xs (some f.closure) (f.depth + 1)
              return unwind results resume callers
          : Plan (List Value ⊕ (Layer × List Layer))) m)
        ((do
          Vm.checkDepth (g.depth + 1)
          match ← Vm.resolve w with
          | .closure ref =>
              return .inr (⟨← Vm.openFrame ref ys (g.depth + 1), resume⟩, others)
          | target =>
              let results ← Plan.callOther target ys (some g.closure) (g.depth + 1)
              return unwind results resume others
          : Plan (List Value ⊕ (Layer × List Layer))) n) := by
  have depths : g.depth + 1 = f.depth + 1 + L.tie.shift := by
    rw [frames.depth]
    omega
  refine dispatch_alike paced arguments (.some frames.closure) depths callee alike quiet ?_ ?_
  · intro a b tied
    refine (Concur.lift (openFrame_agree paced.toLawful tied arguments depths)).bind
      fun x y frames => .pure ?_
    have layers : L.tie.Layers ⟨x, resume⟩ ⟨y, resume⟩ := ⟨frames, rfl⟩
    exact .stack layers below
  · exact fun _ _ results => .pure (.unwind results resume below)

/-- An instruction is executed alike on like stacks, in a machine where it surveys no heap. -/
theorem advance_alike (paced : L.Paced) {top other : Layer} (layers : L.tie.Layers top other)
    {callers others : List Layer} (below : callers.Forall₂ L.tie.Layers others)
    (instruction : Instruction) {m n : Machine} (alike : L.machines i m n)
    (quiet : ∀ n, Point.Calls ⟨.executes top.frame instruction, m⟩ n → n.Surveys → L.tie.Whole)
    : L.Alike True L.tie.Outputs i (Plan.advance top callers instruction m)
        (Plan.advance other others instruction n) := by
  obtain ⟨f, resume⟩ := top
  obtain ⟨g, _⟩ := other
  obtain ⟨frames, rfl⟩ := layers
  have moved : L.tie.Frames { f with pc := f.pc + 1 } { g with pc := g.pc + 1 } :=
    { frames with pc := congrArg (· + 1) frames.pc }
  have stacked {x y : Frame} (frames : L.tie.Frames x y)
      : L.tie.Layers ⟨x, resume⟩ ⟨y, resume⟩ :=
    ⟨frames, rfl⟩
  have executed (op : Opcode)
      : L.Concur True
          (do return Vm.Flow.next (← Plan.execute { f with pc := f.pc + 1 } op instruction)
            : Plan Vm.Flow)
          (do return Vm.Flow.next (← Plan.execute { g with pc := g.pc + 1 } op instruction))
          fun x y => ∃ f g, x = Vm.Flow.next f ∧ y = Vm.Flow.next g ∧ L.tie.Frames f g :=
    (execute_concur paced moved op instruction).bind fun _ _ frames =>
      .pure ⟨_, _, rfl, rfl, frames⟩
  have called (operation : instruction.operation? = some .call
      ∨ instruction.operation? = some .tailCall) (resume : Resume) :=
    descend_alike paced moved (frames.registers instruction.a)
      (moved.span (instruction.a + 1) instruction.b) resume (.cons (stacked moved) below) alike
      fun n reaches => quiet n ⟨operation, reaches⟩
  unfold Plan.advance Plan.perform
  cases found : instruction.operation? with
  | none => exact .ends ((malformed_agree moved _).outcome alike)
  | some op =>
      cases op with
      | call => exact called (.inl found) _
      | tailCall => exact called (.inr found) _
      | ret => exact .ends (.ok alike (.unwind (moved.span _ _) resume below))
      | _ =>
          refine ((executed _).bind ?_).course alike
          rintro _ _ ⟨x, y, rfl, rfl, frames⟩
          exact .pure (.stack (stacked frames) below)

end Likeness
end HookMachine
