import HookMachine.Execution.Call
import HookMachine.Proofs.Execution.Outcomes

/-!
The course of an operation: which calls it makes, one after the other, in which machines, and
how it goes on with what comes back. Every operation that reaches back into running code is laid
out as a plan, which run with the calls it is given is that operation.
-/

namespace HookMachine

/-- A call of a function for a closure or for nobody, at a depth. -/
structure Invocation where
  f : Value
  arguments : List Value
  caller : Option ClosureRef
  depth : Nat

/-- Makes a call. -/
def Invocation.run (call : Invocation) (invoke : Invoke) : Vm (List Value) :=
  invoke call.f call.arguments call.caller call.depth

/-- What an operation does from a machine on, told by the calls and requests that it makes: each
in the machine `now`, and what follows for every answer and every machine that comes with it.
-/
inductive Course (α : Type) where
  | ends (outcome : EStateM.Result (Halt Fault) Machine α)
  | calls (call : Invocation) (now : Machine)
      (next : Except Fault (List Value) → Machine → Course α)
  | asks (request : Request) (now : Machine)
      (next : Except Failure request.Answer → Machine → Course α)

/-- An operation, laid out by its courses. -/
def Plan (α : Type) : Type :=
  Machine → Course α

namespace Course

variable {α β : Type}

/-- Answers a request; a failure is an answer. -/
def answer (invoke : Invoke) (request : Request) : Vm (Except Failure request.Answer) :=
  Run.mapError Failure.toFault (Run.attempt (serve invoke request))

/-- How a course ends if calls are made by `invoke`. -/
def run (invoke : Invoke) : Course α → EStateM.Result (Halt Fault) Machine α
  | .ends outcome => outcome
  | .calls call now next =>
      match Run.attempt (call.run invoke) now with
      | .ok results after => (next results after).run invoke
      | .error halt after => .error halt after
  | .asks request now next =>
      match answer invoke request now with
      | .ok reply after => (next reply after).run invoke
      | .error halt after => .error halt after

/-- Goes on where a course ends with a result. -/
def bind : Course α → (α → Plan β) → Course β
  | .ends (.ok a after), f => f a after
  | .ends (.error halt after), _ => .ends (.error halt after)
  | .calls call now next, f => .calls call now fun results after => (next results after).bind f
  | .asks request now next, f => .asks request now fun reply after => (next reply after).bind f

end Course

namespace Action

variable {α β : Type}

theorem toVm_bind (x : Action α) (f : α → Action β)
    : (x >>= f).toVm = x.toVm >>= fun a => (f a).toVm := by
  funext m
  change Run.mapError _ (EStateM.bind x f) m = EStateM.bind (Run.mapError _ x) _ m
  unfold Run.mapError EStateM.bind
  rcases ran : x m with ⟨a, after⟩ | ⟨_ | _, after⟩ <;> simp only [ran]
  rfl

theorem toVm_lift (x : Vm α) : (liftM x : Action α).toVm = x := by
  funext m
  change Run.mapError _ (Run.mapError _ x) m = _
  unfold Run.mapError
  rcases ran : x m with ⟨a, after⟩ | ⟨_ | _, after⟩ <;> rfl

end Action

namespace Plan

variable {α β : Type}

instance : Monad Plan where
  pure a := fun m => .ends (.ok a m)
  bind plan f := fun m => (plan m).bind f

/-- An operation that makes no call, as a plan. -/
instance : MonadLift Vm Plan where
  monadLift x := fun m => .ends (x m)

/-- The operation that a plan lays out, with calls made by `invoke`. -/
def run (invoke : Invoke) (plan : Plan α) : Vm α :=
  fun m => (plan m).run invoke

/-- Calls a function; its failure is an answer. -/
def tryCall (f : Value) (arguments : List Value) (caller : Option ClosureRef) (depth : Nat)
    : Plan (Except Fault (List Value)) :=
  fun m => .calls { f, arguments, caller, depth } m fun results after => .ends (.ok results after)

/-- Calls a function and fails as it does. -/
def call (f : Value) (arguments : List Value) (caller : Option ClosureRef) (depth : Nat)
    : Plan (List Value) := do
  match ← tryCall f arguments caller depth with
  | .ok results => return results
  | .error fault => Vm.fail fault

/-- Makes a request of a host; its failure is an answer. -/
def ask (request : Request) : Plan (Except Failure request.Answer) :=
  fun m => .asks request m fun reply after => .ends (.ok reply after)

-----------------------------------------------------------------------------------------
-- Plans that are run
-----------------------------------------------------------------------------------------

variable {invoke : Invoke}

@[simp]
theorem run_pure (a : α) : (pure a : Plan α).run invoke = pure a :=
  rfl

@[simp]
theorem run_lift (x : Vm α) : (liftM x : Plan α).run invoke = x :=
  rfl

/-- A course that begins with a call runs as the call and what follows its answer. -/
theorem run_calls (call : Invocation) (now : Machine)
    (next : Except Fault (List Value) → Plan α)
    : (Course.calls call now next).run invoke
      = (Run.attempt (call.run invoke) >>= fun results => (next results).run invoke) now := by
  change _ = EStateM.bind _ _ now
  unfold Course.run EStateM.bind
  cases Run.attempt (call.run invoke) now <;> rfl

/-- A course that begins with a request runs as the request and what follows its answer. -/
theorem run_asks (request : Request) (now : Machine)
    (next : Except Failure request.Answer → Plan α)
    : (Course.asks request now next).run invoke
      = (Course.answer invoke request >>= fun reply => (next reply).run invoke) now := by
  change _ = EStateM.bind _ _ now
  unfold Course.run EStateM.bind
  cases Course.answer invoke request now <;> rfl

/-- A course that goes on after its end runs as one operation after the other. -/
@[simp]
theorem run_bind (plan : Plan α) (f : α → Plan β)
    : (plan >>= f).run invoke = plan.run invoke >>= fun a => (f a).run invoke := by
  funext m
  change ((plan m).bind f).run invoke
    = EStateM.bind (plan.run invoke) (fun a => (f a).run invoke) m
  unfold EStateM.bind run
  generalize plan m = course
  induction course with
  | ends outcome => rcases outcome with ⟨a, after⟩ | ⟨halt, after⟩ <;> rfl
  | calls call now next ih =>
      simp only [Course.bind, Course.run]
      rcases Run.attempt (call.run invoke) now with ⟨results, after⟩ | ⟨halt, after⟩
      · exact ih results after
      · rfl
  | asks request now next ih =>
      simp only [Course.bind, Course.run]
      rcases Course.answer invoke request now with ⟨reply, after⟩ | ⟨halt, after⟩
      · exact ih reply after
      · rfl

@[simp]
theorem run_tryCall (f : Value) (arguments : List Value) (caller : Option ClosureRef)
    (depth : Nat)
    : (tryCall f arguments caller depth).run invoke
      = Run.attempt (invoke f arguments caller depth) := by
  funext m
  simp only [run, tryCall, Course.run, Invocation.run]
  cases Run.attempt (invoke f arguments caller depth) m <;> rfl

@[simp]
theorem run_call (f : Value) (arguments : List Value) (caller : Option ClosureRef)
    (depth : Nat)
    : (call f arguments caller depth).run invoke = invoke f arguments caller depth := by
  funext m
  unfold call
  rw [run_bind, run_tryCall]
  change EStateM.bind _ _ m = _
  unfold EStateM.bind Run.attempt
  rcases invoke f arguments caller depth m with ⟨results, after⟩ | ⟨_ | _, after⟩ <;> rfl

@[simp]
theorem run_ask (request : Request)
    : (ask request).run invoke = Course.answer invoke request := by
  funext m
  simp only [run, ask, Course.run]
  cases Course.answer invoke request m <;> rfl

-----------------------------------------------------------------------------------------
-- Fields
-----------------------------------------------------------------------------------------

/-- Reads a field along at most `limit` tables. -/
def indexChain (key : Value) (depth : Nat) (limit : Nat) (object : Value) : Plan Value :=
  match limit with
  | 0 => Vm.fail .readChain
  | limit + 1 =>
      match object with
      | .table ref => do
          let t ← Vm.table ref
          match t.get? key with
          | some value => return value
          | none =>
              let next ← Vm.handler t "__index"
              if next.isNil then
                return .nil
              else if next.isFunction then
                let results ← call next [object, key] none (depth + 1)
                return results.headD .nil
              else
                indexChain key depth limit next
      | other => Vm.fail (.misuse .index other.kind)

theorem run_indexChain (key : Value) (depth limit : Nat) (object : Value)
    : (indexChain key depth limit object).run invoke
      = Vm.indexChain invoke key depth limit object := by
  induction limit generalizing object with
  | zero => rfl
  | succ limit ih =>
      cases object with
      | table ref =>
          simp only [indexChain, Vm.indexChain, run_bind, run_lift]
          refine congrArg _ (funext fun t => ?_)
          rcases t.get? key with _ | value
          · simp only [run_bind, run_lift]
            refine congrArg _ (funext fun next => ?_)
            split
            · rfl
            · split
              · simp
              · exact ih next
          · rfl
      | _ => rfl

/-- Reads a field of an object at a call depth. -/
def index (object key : Value) (depth : Nat) : Plan Value :=
  indexChain key depth Vm.maxChain object

@[simp]
theorem run_index (object key : Value) (depth : Nat)
    : (index object key depth).run invoke = Vm.index invoke object key depth :=
  run_indexChain key depth Vm.maxChain object

/-- Writes a field along at most `limit` tables. -/
def assignChain (key value : Value) (depth : Nat) (limit : Nat) (object : Value) : Plan Unit :=
  match limit with
  | 0 => Vm.fail .writeChain
  | limit + 1 =>
      match object with
      | .table ref => do
          Vm.checkOwner value
          let t ← Vm.table ref
          let next ← Vm.writeHandler t key
          if next.isNil then
            if t.readOnly then
              Vm.fail .readOnly
            Vm.updateTable ref (·.set key value)
          else if next.isFunction then
            let _ ← call next [object, key, value] none (depth + 1)
          else
            assignChain key value depth limit next
      | other => Vm.fail (.misuse .index other.kind)

theorem run_assignChain (key value : Value) (depth limit : Nat) (object : Value)
    : (assignChain key value depth limit object).run invoke
      = Vm.assignChain invoke key value depth limit object := by
  induction limit generalizing object with
  | zero => rfl
  | succ limit ih =>
      cases object with
      | table ref =>
          simp only [assignChain, Vm.assignChain, run_bind, run_lift]
          refine congrArg _ (funext fun _ => congrArg _ (funext fun t => ?_))
          refine congrArg _ (funext fun next => ?_)
          split
          · split
            · simp
            · rfl
          · split
            · simp
            · exact ih next
      | _ => rfl

/-- Writes a field of an object at a call depth. -/
def assign (object key value : Value) (depth : Nat) : Plan Unit := do
  Vm.checkKey key
  assignChain key value depth Vm.maxChain object

@[simp]
theorem run_assign (object key value : Value) (depth : Nat)
    : (assign object key value depth).run invoke = Vm.assign invoke object key value depth := by
  simp only [assign, Vm.assign, run_bind, run_lift, run_assignChain]

-----------------------------------------------------------------------------------------
-- Connections and functions of scripts
-----------------------------------------------------------------------------------------

/-- Runs the callback of a connection if it is enabled, and says whether it was. -/
def fire (arguments : List Value) (caller : Option ClosureRef) (depth : Nat) (index : Nat)
    : Plan Bool := do
  match ConnectionRegistry.callback? (← (get : Vm Machine)).connections index with
  | none => return false
  | some callback =>
      let _ ← tryCall callback arguments caller depth
      return true

@[simp]
theorem run_fire (arguments : List Value) (caller : Option ClosureRef) (depth index : Nat)
    : (fire arguments caller depth index).run invoke
      = Connection.fire (invoke · arguments caller depth) index := by
  simp only [fire, Connection.fire, run_bind, run_lift]
  refine congrArg _ (funext fun m => ?_)
  cases ConnectionRegistry.callback? m.connections index <;> simp

/-- Fires connections one after the other and counts those that ran. -/
def fireAll (arguments : List Value) (caller : Option ClosureRef) (depth : Nat)
    : List Nat → Plan Nat
  | [] => pure 0
  | index :: rest => do
      let ran ← fire arguments caller depth index
      let others ← fireAll arguments caller depth rest
      return others + if ran then 1 else 0

@[simp]
theorem run_fireAll (arguments : List Value) (caller : Option ClosureRef) (depth : Nat)
    (indices : List Nat)
    : (fireAll arguments caller depth indices).run invoke
      = Connection.fireAll (invoke · arguments caller depth) indices := by
  induction indices with
  | nil => rfl
  | cons index rest ih =>
      simp only [fireAll, Connection.fireAll, run_bind, run_fire, run_pure, ih]

/-- Fires every connection that a signal has now. -/
def fireSignal (arguments : List Value) (caller : Option ClosureRef) (depth : Nat)
    (signal : String)
    : Plan Nat := do
  let m ← (get : Vm Machine)
  fireAll arguments caller depth (ConnectionRegistry.ofSignal m.connections signal)

@[simp]
theorem run_fireSignal (arguments : List Value) (caller : Option ClosureRef) (depth : Nat)
    (signal : String)
    : (fireSignal arguments caller depth signal).run invoke
      = Connection.fireSignal (invoke · arguments caller depth) signal := by
  simp only [fireSignal, Connection.fireSignal, run_bind, run_lift, run_fireAll]

/-- Stands for calls where an operation makes none. -/
def noCall : Script.Nested :=
  fun _ _ => pure []

/-- A function of the script surface, which makes no call unless it fires a signal. -/
def script (caller : Option ClosureRef) (depth : Nat) (f : ScriptFunction)
    (arguments : List Value)
    : Plan (List Value) :=
  match f with
  | .fireSignal => do
      let signal ← (Script.string arguments 0 "signal name").toVm
      return [.ofNat (← fireSignal (arguments.drop 1) caller depth signal)]
  | f => (Script.run noCall caller f arguments).toVm

@[simp]
theorem run_script (caller : Option ClosureRef) (depth : Nat) (f : ScriptFunction)
    (arguments : List Value)
    : (script caller depth f arguments).run invoke
      = (Script.run (invoke · · caller depth) caller f arguments).toVm := by
  cases f with
  | fireSignal =>
      simp only [script, Script.run, run_bind, run_lift, run_fireSignal, run_pure,
        Action.toVm_bind, Action.toVm_lift]
      rfl
  | _ => rfl

/-- A method of a connection handle, which makes no call unless it fires the connection. -/
def method (caller : Option ClosureRef) (depth : Nat) (m : ConnectionMethod) (index : Nat)
    (owner : TableRef) (arguments : List Value)
    : Plan (List Value) :=
  match m with
  | .fire => do
      let arguments :=
        match arguments with
        | .table ref :: rest => if ref = owner then rest else arguments
        | _ => arguments
      return [.boolean (← fire arguments caller depth index)]
  | m => Script.runMethod noCall m index owner arguments

@[simp]
theorem run_method (caller : Option ClosureRef) (depth : Nat) (m : ConnectionMethod)
    (index : Nat) (owner : TableRef) (arguments : List Value)
    : (method caller depth m index owner arguments).run invoke
      = Script.runMethod (invoke · · caller depth) m index owner arguments := by
  cases m with
  | fire =>
      simp only [method, run_bind, run_fire, run_pure]
      rfl
  | _ => rfl

-----------------------------------------------------------------------------------------
-- Calls of what is no closure
-----------------------------------------------------------------------------------------

/-- A function of the host, with its calls at a depth. -/
def program (caller : Option ClosureRef) (depth : Nat) : HostProgram → Plan (List Value)
  | .finish results => pure results
  | .fail fault => Vm.fail fault
  | .call f arguments next => do
      let outcome ← tryCall f arguments caller depth
      program caller depth (next outcome)
  | .ask request next => do
      let reply ← ask request
      program caller depth (next reply)
  | .create name body bound next => do
      let made : Action NativeRef := Vm.createNative { name, body := .host body, bound }
      let reply ← Run.mapError Failure.toFault (Run.attempt made)
      program caller depth (next reply)

@[simp]
theorem run_program (caller : Option ClosureRef) (depth : Nat) (body : HostProgram)
    : (program caller depth body).run invoke
      = Vm.runProgram invoke (invoke · · caller depth) body := by
  induction body with
  | finish results => rfl
  | fail fault => rfl
  | call f arguments next ih =>
      simp only [program, Vm.runProgram, run_bind, run_tryCall, ih]
  | ask request next ih =>
      simp only [program, Vm.runProgram, run_bind, run_ask, ih]
      rfl
  | create name body bound next _ ih =>
      simp only [program, Vm.runProgram, run_bind, ih]
      rfl

/-- What a native does when it is called. -/
def body (arguments : List Value) (caller : Option ClosureRef) (depth : Nat)
    : NativeBody → Plan (List Value)
  | .script f => do
      unless (← (get : Vm Machine)).alive do
        Vm.fail (.dropped (some f.name))
      script caller (depth + 1) f arguments
  | .method m index owner => do
      unless (← (get : Vm Machine)).alive do
        Vm.fail (.dropped none)
      method caller (depth + 1) m index owner arguments
  | .wrapper inner => call inner arguments caller (depth + 1)
  | .host f => program caller (depth + 1) (f caller arguments)

/-- Calls a native for the closure `caller`. -/
def callNative (ref : NativeRef) (arguments : List Value) (caller : Option ClosureRef)
    (depth : Nat)
    : Plan (List Value) := do
  body arguments caller depth (← Vm.native ref).body

@[simp]
theorem run_callNative (ref : NativeRef) (arguments : List Value)
    (caller : Option ClosureRef) (depth : Nat)
    : (callNative ref arguments caller depth).run invoke
      = Vm.callNative invoke ref arguments caller depth := by
  simp only [callNative, Vm.callNative, run_bind, run_lift]
  refine congrArg _ (funext fun n => ?_)
  cases n.body with
  | script f =>
      simp only [body, run_bind, run_lift]
      refine congrArg _ (funext fun m => ?_)
      split <;> simp
  | method m index owner =>
      simp only [body, run_bind, run_lift]
      refine congrArg _ (funext fun m => ?_)
      split <;> simp
  | wrapper inner => exact run_call ..
  | host f => exact run_program ..

/-- Calls a value that is no closure. -/
def callOther (target : Value) (arguments : List Value) (caller : Option ClosureRef)
    (depth : Nat)
    : Plan (List Value) := do
  match target with
  | .native ref => callNative ref arguments caller depth
  | .table _ =>
      let handler ← Vm.metamethod target "__call"
      unless handler.isFunction do
        Vm.fail (.notCallable .table)
      call handler (target :: arguments) caller (depth + 1)
  | other => Vm.fail (.notCallable other.kind)

@[simp]
theorem run_callOther (target : Value) (arguments : List Value) (caller : Option ClosureRef)
    (depth : Nat)
    : (callOther target arguments caller depth).run invoke
      = Vm.callOther invoke target arguments caller depth := by
  cases target with
  | native ref => exact run_callNative ref arguments caller depth
  | table ref =>
      simp only [callOther, Vm.callOther, run_bind, run_lift]
      refine congrArg _ (funext fun handler => ?_)
      split <;> simp
  | _ => rfl

-----------------------------------------------------------------------------------------
-- Instructions
-----------------------------------------------------------------------------------------

/-- Executes an instruction that neither calls nor returns; those that read or write a field
may reach a metamethod.
-/
def execute (frame : Frame) (op : Opcode) (i : Instruction) : Plan Frame := do
  match op with
  | .getGlobal =>
      let key ← Vm.constant frame i.bx
      return frame.write i.a (← index (.table frame.environment) key frame.depth)
  | .setGlobal =>
      let key ← Vm.constant frame i.bx
      assign (.table frame.environment) key (frame.read i.a) frame.depth
      return frame
  | .getTable =>
      let key ← Vm.operand frame i.c
      return frame.write i.a (← index (frame.read i.b) key frame.depth)
  | .setTable =>
      let key ← Vm.operand frame i.b
      let value ← Vm.operand frame i.c
      assign (frame.read i.a) key value frame.depth
      return frame
  | .self =>
      let object := frame.read i.b
      let key ← Vm.operand frame i.c
      let method ← index object key frame.depth
      return (frame.write (i.a + 1) object).write i.a method
  | op => Vm.execute (fun f arguments _ _ => noCall f arguments) frame op i

@[simp]
theorem run_execute (frame : Frame) (op : Opcode) (i : Instruction)
    : (execute frame op i).run invoke = Vm.execute invoke frame op i := by
  cases op with
  | getGlobal | getTable | self =>
      simp only [execute, Vm.execute, run_bind, run_lift, run_index, run_pure]
  | setGlobal | setTable =>
      simp only [execute, Vm.execute, run_bind, run_lift, run_assign, run_pure]
  | _ => rfl

end Plan

namespace Vm

/-- The next instruction of an activation, which is charged for. -/
def fetch (frame : Frame) : Vm Instruction :=
  match frame.code[frame.pc]? with
  | none => fail (.malformed frame.pc .pastEnd)
  | some i => do
      charge
      return i

/-- Without a limit nothing is counted. -/
theorem charge_of_free {m : Machine} (free : m.config.limits.instructions = 0)
    : charge m = .ok () m := by
  refine (Run.bind_get ..).trans ?_
  dsimp only
  rw [if_neg (by omega)]
  rfl

/-- Within the limit an instruction is counted. -/
theorem charge_of_lt {m : Machine} (left : m.steps < m.config.limits.instructions)
    : charge m = .ok () { m with steps := m.steps + 1 } := by
  refine (Run.bind_get ..).trans ?_
  dsimp only
  rw [if_pos (Nat.zero_lt_of_lt left), if_neg (Nat.not_lt.mpr left)]
  rfl

/-- Once the limit is reached an instruction fails. -/
theorem charge_of_le {m : Machine} (limited : 0 < m.config.limits.instructions)
    (spent : m.config.limits.instructions ≤ m.steps)
    : charge m = .error (.failed .instructionLimit) m := by
  refine (Run.bind_get ..).trans ?_
  dsimp only
  rw [if_pos limited, if_pos (Nat.lt_succ_of_le spent)]
  rfl

/-- Charging for an instruction either counts it or fails, and changes nothing else. -/
theorem charge_cases (m : Machine)
    : charge m = .error (.failed .instructionLimit) m
      ∨ (m.config.limits.instructions = 0 ∧ charge m = .ok () m)
      ∨ (m.steps < m.config.limits.instructions
        ∧ charge m = .ok () { m with steps := m.steps + 1 }) := by
  rcases Nat.eq_zero_or_pos m.config.limits.instructions with free | limited
  · exact .inr (.inl ⟨free, charge_of_free free⟩)
  · rcases Nat.lt_or_ge m.steps m.config.limits.instructions with left | spent
    · exact .inr (.inr ⟨left, charge_of_lt left⟩)
    · exact .inl (charge_of_le limited spent)

/-- An instruction is fetched and charged for, or fetching fails and changes nothing. -/
theorem fetch_cases (frame : Frame) (m : Machine)
    : (∃ fault, fetch frame m = .error (.failed fault) m)
      ∨ ∃ i,
        (m.config.limits.instructions = 0 ∧ fetch frame m = .ok i m)
        ∨ (m.steps < m.config.limits.instructions
          ∧ fetch frame m = .ok i { m with steps := m.steps + 1 }) := by
  unfold fetch
  rcases frame.code[frame.pc]? with _ | i
  · exact .inl ⟨_, rfl⟩
  · rcases charge_cases m with spent | ⟨free, charged⟩ | ⟨left, charged⟩
    · exact .inl ⟨_, Run.bind_error spent⟩
    · exact .inr ⟨i, .inl ⟨free, Run.bind_ok charged⟩⟩
    · exact .inr ⟨i, .inr ⟨left, Run.bind_ok charged⟩⟩

end Vm

namespace Plan

variable {invoke : Invoke}

/-- Executes an instruction that has been charged for. -/
def perform (frame : Frame) (i : Instruction) : Plan Vm.Flow := do
  let frame := { frame with pc := frame.pc + 1 }
  match i.operation? with
  | none => Vm.malformed frame (.unknownOpcode i.opcode)
  | some .call => return .call frame (frame.read i.a) (frame.span (i.a + 1) i.b) (.store i.a i.c)
  | some .tailCall => return .call frame (frame.read i.a) (frame.span (i.a + 1) i.b) .forward
  | some .ret => return .finish (frame.span i.a i.b)
  | some op => return .next (← execute frame op i)

theorem step_eq (frame : Frame)
    : Vm.step invoke frame = Vm.fetch frame >>= fun i => (perform frame i).run invoke := by
  unfold Vm.step Vm.fetch
  rcases frame.code[frame.pc]? with _ | i
  · rfl
  · simp only [bind_assoc, pure_bind, perform]
    refine congrArg _ (funext fun _ => ?_)
    rcases i.operation? with _ | op
    · rfl
    · cases op <;> simp

/-- Does what an instruction of the activation on top of the stack asks for. -/
def advance (top : Layer) (callers : List Layer) (i : Instruction)
    : Plan (List Value ⊕ (Layer × List Layer)) := do
  match ← perform top.frame i with
  | .next frame => return .inr ({ top with frame }, callers)
  | .finish results => return unwind results top.resume callers
  | .call frame f arguments resume =>
      let depth := frame.depth + 1
      let callers := { top with frame } :: callers
      Vm.checkDepth depth
      match ← Vm.resolve f with
      | .closure callee =>
          return .inr (⟨← Vm.openFrame callee arguments depth, resume⟩, callers)
      | target =>
          let results ← callOther target arguments (some frame.closure) depth
          return unwind results resume callers

theorem advance_eq (top : Layer) (callers : List Layer)
    : Vm.advance invoke top callers
      = Vm.fetch top.frame >>= fun i => (advance top callers i).run invoke := by
  simp only [Vm.advance, step_eq, bind_assoc, advance, run_bind]
  refine congrArg _ (funext fun i => congrArg _ (funext fun flow => ?_))
  cases flow with
  | next frame => rfl
  | finish results => rfl
  | call frame f arguments resume =>
      simp only [run_bind, run_lift]
      refine congrArg _ (funext fun _ => congrArg _ (funext fun target => ?_))
      cases target <;> simp

/-- A stack goes on by what the instruction on its top asks for, once it is charged for. -/
theorem runFrames_eq (fuel : Nat) (top : Layer) (callers : List Layer)
    : Vm.runFrames invoke (fuel + 1) top callers
      = Vm.fetch top.frame >>= fun i => (advance top callers i).run invoke >>= fun
          | .inl results => pure results
          | .inr (top, callers) => Vm.runFrames invoke fuel top callers := by
  rw [Vm.runFrames, advance_eq]
  exact bind_assoc ..

/-- Begins a call: a closure is activated, anything else is called at once. -/
def start (call : Invocation) : Plan (List Value ⊕ Frame) := do
  Vm.checkDepth call.depth
  match ← Vm.resolve call.f with
  | .closure ref => return .inr (← Vm.openFrame ref call.arguments call.depth)
  | target => return .inl (← callOther target call.arguments call.caller call.depth)

theorem call_eq (fuel : Nat) (call : Invocation)
    : call.run (Vm.call (fuel + 1))
      = (start call).run (Vm.call fuel) >>= fun
          | .inl results => pure results
          | .inr frame => Vm.runFrames (Vm.call fuel) fuel ⟨frame, .forward⟩ [] := by
  simp only [Invocation.run, Vm.call, start, run_bind, run_lift, bind_assoc]
  refine congrArg _ (funext fun _ => congrArg _ (funext fun target => ?_))
  cases target <;> simp

end Plan
end HookMachine
