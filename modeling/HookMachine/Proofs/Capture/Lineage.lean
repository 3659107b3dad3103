import HookMachine.Proofs.Deeds.Courses

/-!
Where captured variables come from and what they hold, told by the points of a run: which registers
activations capture, which closures are copied or made over a prototype, and what is assigned. Cells of
the machine have no part in it.
-/

namespace HookMachine

/-- Where a captured variable comes from. -/
inductive Origin where
  /-- A register that an activation captured. -/
  | register (activation r : Nat)
  /-- A variable of a closure that was made over a prototype, and by no activation. -/
  | slot (point : Nat) (closure : ClosureRef) (k : Nat)
deriving DecidableEq, Repr

/-- An activation: which point opened it, and where the variables of its closure come from. -/
structure Activation where
  number : Nat
  upvalue : Nat → Origin

/-- Where captured variables come from and what they hold. -/
structure Lineage where
  /-- How many points have been come by. -/
  points : Nat := 0
  /-- How many entries from the host are under way. -/
  level : Nat := 0
  /-- The activations by entry and depth. -/
  running : Nat × Nat → Option Activation := fun _ => none
  /-- Where the variables of each closure come from. -/
  origin : ClosureRef → Nat → Origin := .slot 0
  /-- What variables hold to which anything was given. -/
  value : Origin → Option Value := fun _ => none

-----------------------------------------------------------------------------------------
-- What points tell
-----------------------------------------------------------------------------------------

/-- What the metatable of an object holds under a name. -/
def Machine.handler? (m : Machine) : Value → String → Option Value
  | .table ref, name => do
      let object ← (m.heap.tables.get ref.handle).toOption
      let metatable ← object.metatable
      let t ← (m.heap.tables.get metatable.handle).toOption
      return .orNil (t.get? (.string name))
  | _, _ => none

/-- The closure that a value refers to. -/
def Value.closure? : Value → Option ClosureRef
  | .closure ref => some ref
  | _ => none

/-- What a function of scripts copies, if that is a function. -/
def ScriptFunction.copied? (m : Machine) (arguments : List Value) : ScriptFunction → Option Value
  | .cloneFunction | .installHook => some (Script.argument arguments 0)
  | .installMetamethodHook =>
      match Script.argument arguments 1 with
      | .string name => m.handler? (Script.argument arguments 0) name
      | _ => none
  | _ => none

/-- What a native copies, if that is a function. -/
def NativeBody.copied? (m : Machine) (arguments : List Value) : NativeBody → Option Value
  | .script f => f.copied? m arguments
  | .method .. | .wrapper _ | .host _ => none

/-- What a request copies, if that is a function. -/
def Request.copied? (m : Machine) : Request → Option Value
  | .clone f => some f
  | .hook target _ => some target
  | .hookMetamethod object name _ => m.handler? object name
  | _ => none

/-- The closure of which copies are made at a point. -/
def Point.copied? (point : Point) : Option ClosureRef :=
  (point.tells? (fun body arguments => body.copied? point.machine arguments)
    (Request.copied? point.machine)).bind Value.closure?

/-- The closure of which a call opens an activation, if it comes down to one. -/
def Machine.activates? (m : Machine) (f : Value) : Option ClosureRef :=
  match Vm.resolve f m with
  | .ok (.closure ref) _ => some ref
  | _ => none

/-- The closure of which an activation is opened at a point, and the depth of that. -/
def Point.opens? (point : Point) : Option (ClosureRef × Nat) :=
  match point.mark with
  | .called call => (point.machine.activates? call.f).map (·, call.depth)
  | .executes frame i =>
      if i.operation? = some .call ∨ i.operation? = some .tailCall then
        (point.machine.activates? (frame.read i.a)).map (·, frame.depth + 1)
      else
        none
  | _ => none

/-- The words that describe what a new closure captures, if an instruction makes one. -/
def Vm.descriptors? (frame : Frame) (i : Instruction) (m : Machine) : Option (List Instruction) :=
  match close { frame with pc := frame.pc + 1 } i m with
  | .ok next _ => some ((frame.code.toList.drop (frame.pc + 1)).take (next.pc - (frame.pc + 1)))
  | .error .. => none

/-- A word describes a register of the activation. -/
def Instruction.describes (word : Instruction) (r : Nat) : Bool :=
  word.operation? = some .move && word.b = r

-----------------------------------------------------------------------------------------
-- What becomes of a lineage
-----------------------------------------------------------------------------------------

/-- Where a variable comes from that a word describes. -/
def Activation.described (activation : Activation) (word : Instruction) : Origin :=
  if word.operation? = some .move then
    .register activation.number word.b
  else
    activation.upvalue word.b

/-- What is given to a variable where an activation captures the registers that words describe. -/
def Activation.captured? (activation : Activation) (frame : Frame) (words : List Instruction)
    : Origin → Option Value
  | .register n r =>
      if n = activation.number ∧ words.any (·.describes r) then some (frame.read r) else none
  | .slot .. => none

/-- What variables hold after an instruction of an activation: one that was captured before goes on to
hold what it does.
-/
def Activation.given (activation : Activation) (frame : Frame) (i : Instruction) (m : Machine)
    (value : Origin → Option Value)
    : Origin → Option Value :=
  match i.operation? with
  | some .setUpval =>
      if i.b < frame.upvalues.size then
        Function.update value (activation.upvalue i.b) (some (frame.read i.a))
      else
        value
  | some .closure =>
      match Vm.descriptors? frame i m with
      | some words => fun origin => (value origin).or (activation.captured? frame words origin)
      | none => value
  | _ => value

namespace Lineage

variable (lineage : Lineage) (point : Point)

/-- The activation that a frame belongs to. -/
def executing (frame : Frame) : Option Activation :=
  lineage.running (lineage.level, frame.depth)

/-- Where a variable comes from that an activation describes for the closure that it makes. -/
def described? (k : Nat) : Option Origin :=
  match point.mark with
  | .executes frame i =>
      if i.operation? = some .closure then do
        let activation ← lineage.executing frame
        let words ← Vm.descriptors? frame i point.machine
        words[k]?.map activation.described
      else
        none
  | _ => none

/-- Where the variables of a closure come from that is made at a point: a copy shares those of the
closure that is copied.
-/
def born (ref : ClosureRef) (k : Nat) : Origin :=
  match point.copied? with
  | some source => lineage.origin source k
  | none => (lineage.described? point k).getD (.slot lineage.points ref k)

/-- The lineage after a point. A closure that is not there yet is there next only if the point makes
it.
-/
def after : Lineage where
  points := lineage.points + 1
  level :=
    match point.mark with
    | .entered => lineage.level + 1
    | .left => lineage.level - 1
    | _ => lineage.level
  running :=
    match point.opens? with
    | some (ref, depth) =>
        Function.update lineage.running (lineage.level, depth)
          (some { number := lineage.points, upvalue := lineage.origin ref })
    | none => lineage.running
  origin ref :=
    if point.machine.heap.isLive (.closure ref) then lineage.origin ref else lineage.born point ref
  value :=
    match point.mark with
    | .executes frame i =>
        match lineage.executing frame with
        | some activation => activation.given frame i point.machine lineage.value
        | none => lineage.value
    | _ => lineage.value

/-- The lineage after the points of a log. -/
def of (log : List Point) : Lineage :=
  log.foldl after {}

end Lineage
end HookMachine
