import HookMachine.Proofs.Deeds.Courses
import HookMachine.Proofs.Execution.Trace
import Mathlib.Logic.Relation

/-!
How what a session does is nested. A course comes to calls and requests, a request to entries from the
host, a call to the activation of a closure, and a stack of activations to instructions, one after the
other, which are laid out by courses again. All of it goes on within levels: the activations that are
open in the same entry, and the accesses to fields that they make.
-/

namespace HookMachine

variable {α : Type} {invoke : Invoke}

-----------------------------------------------------------------------------------------
-- Courses and errands
-----------------------------------------------------------------------------------------

namespace Course

/-- A course whose calls are made by `invoke` comes to what is left of it. -/
inductive Comes (invoke : Invoke) : Course α → Course α → Prop
  | refl (course : Course α) : Comes invoke course course
  | called {call : Invocation} {now : Machine} {next : Except Fault (List Value) → Machine → Course α}
    {results : Except Fault (List Value)} {after : Machine} {rest : Course α}
    (ran : Run.attempt (call.run invoke) now = .ok results after)
    (comes : Comes invoke (next results after) rest)
    : Comes invoke (.calls call now next) rest
  | answered {request : Request} {now : Machine}
    {next : Except Failure request.Answer → Machine → Course α}
    {reply : Except Failure request.Answer} {after : Machine} {rest : Course α}
    (ran : answer invoke request now = .ok reply after)
    (comes : Comes invoke (next reply after) rest)
    : Comes invoke (.asks request now next) rest

/-- A course makes a call in a machine. -/
def Makes (invoke : Invoke) (course : Course α) (call : Invocation) (now : Machine) : Prop :=
  ∃ next, course.Comes invoke (.calls call now next)

/-- A course makes a request in a machine. -/
def Asks (invoke : Invoke) (course : Course α) (request : Request) (now : Machine) : Prop :=
  ∃ next, course.Comes invoke (.asks request now next)

end Course

/-- An errand enters a machine, which has entered the entry then, to do what a plan lays out. -/
inductive Errand.Enters (invoke : Invoke) : Errand α → Plan (List Value) → Machine → Prop
  | first (body : Plan (List Value)) (now : Machine)
    (next : Except Fault (List Value) → Machine → Errand α)
    : Enters invoke (.enters body now next) body now.enter
  | later {body other : Plan (List Value)} {now after there : Machine}
    {next : Except Fault (List Value) → Machine → Errand α} {results : Except Fault (List Value)}
    (ran : Run.attempt (Vm.enter (body.run invoke)) now = .ok results after)
    (enters : Enters invoke (next results after) other there)
    : Enters invoke (.enters body now next) other there

-----------------------------------------------------------------------------------------
-- Stacks
-----------------------------------------------------------------------------------------

/-- A stack comes from one instruction to the next, which may be that of another activation. -/
def Vm.Onward (invoke : Invoke) (now next : (Layer × List Layer) × Machine) : Prop :=
  advance invoke now.1.1 now.1.2 now.2 = .ok (.inr next.1) next.2

/-- A stack opened on one activation comes to another, whose instruction is charged for. -/
structure Vm.Executes (invoke : Invoke) (opened : Frame) (begun : Machine) (top : Layer)
    (callers : List Layer) (i : Instruction) (charged : Machine) : Prop where
  comes : ∃ here, Relation.ReflTransGen (Onward invoke) ((⟨opened, .forward⟩, []), begun)
      ((top, callers), here)
    ∧ fetch top.frame here = .ok i charged

-----------------------------------------------------------------------------------------
-- Works
-----------------------------------------------------------------------------------------

/-- What is carried out at a time. -/
inductive Work where
  /-- What a session does, or an entry from the host. -/
  | body (plan : Plan (List Value))
  | call (call : Invocation)
  /-- An instruction of the activation on top of a stack, once it is charged for. -/
  | instruction (top : Layer) (callers : List Layer) (i : Instruction)

/-- What something is nested in within an entry. -/
inductive Level where
  | activation (frame : Frame)
  /-- The reading or writing of a field for the activation outside. -/
  | field

namespace Work

/-- What a work comes to. -/
def Outcome : Work → Type
  | .body _ => List Value
  | .call _ => List Value ⊕ Frame
  | .instruction .. => List Value ⊕ (Layer × List Layer)

def plan : (work : Work) → Plan work.Outcome
  | .body plan => plan
  | .call made => Plan.start made
  | .instruction top callers i => Plan.advance top callers i

/-- The call that a work is. -/
def called? : Work → Option Invocation
  | .body _ => none
  | .call made => some made
  | .instruction top _ i =>
      if i.operation? = some .call ∨ i.operation? = some .tailCall then
        some {
          f := top.frame.read i.a
          arguments := top.frame.span (i.a + 1) i.b
          caller := some top.frame.closure
          depth := top.frame.depth + 1 }
      else
        none

/-- The levels of what natives and handlers do that a work within `outer` reaches. An instruction that
is no call reaches those that handle an access to a field.
-/
def levels (outer : List Level) : Work → List Level
  | .instruction top callers i =>
      let opened := (top :: callers).map (fun layer => .activation layer.frame) ++ outer
      if i.operation? = some .call ∨ i.operation? = some .tailCall then opened else .field :: opened
  | _ => outer

end Work

/-- A session begun in a machine, with an amount of fuel, comes to carry out a work: with what fuel is
left, within which levels, and in which machine.
-/
inductive HostProgram.Comes (session : HostProgram) (limit : Nat) (start : Machine)
    : Nat → List Level → Work → Machine → Prop
  | begins : Comes session limit start limit [] (.body (Plan.program none 0 session)) start
  /-- An entry that is made within another has levels of its own. -/
  | enters {fuel : Nat} {outer : List Level} {work : Work} {now there inside : Machine}
    {request : Request} {body : Plan (List Value)}
    (comes : Comes session limit start fuel outer work now)
    (asks : (work.plan now).Asks (Vm.call fuel) request there)
    (enters : (request.errand there).Enters (Vm.call fuel) body inside)
    : Comes session limit start fuel [] (.body body) inside
  | calls {fuel : Nat} {outer : List Level} {work : Work} {now there : Machine} {call : Invocation}
    (comes : Comes session limit start (fuel + 1) outer work now)
    (makes : (work.plan now).Makes (Vm.call (fuel + 1)) call there)
    : Comes session limit start fuel (work.levels outer) (.call call) there
  | executes {fuel : Nat} {outer : List Level} {now begun charged : Machine} {call : Invocation}
    {opened : Frame} {top : Layer} {callers : List Layer} {i : Instruction}
    (comes : Comes session limit start fuel outer (.call call) now)
    (opens : (Plan.start call).run (Vm.call fuel) now = .ok (.inr opened) begun)
    (executes : Vm.Executes (Vm.call fuel) opened begun top callers i charged)
    : Comes session limit start fuel outer (.instruction top callers i) charged

end HookMachine
