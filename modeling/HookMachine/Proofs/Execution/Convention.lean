import HookMachine.Proofs.Execution.Outcomes
import HookMachine.Proofs.Execution.Recursion
import HookMachine.Proofs.Likeness.Frames
import Mathlib.Logic.Relation

/-!
How activations pass values. Arguments and results of any number go over as they are, and while
what is called runs, the activation that called it lies untouched: it goes on as it was but for
the registers that take the results.
-/

namespace HookMachine

-----------------------------------------------------------------------------------------
-- Registers
-----------------------------------------------------------------------------------------

/-- The value at a position of a list that stands in the registers from `a` on, if the register is
one of them.
-/
def Frame.readOver (frame : Frame) (a : Nat) (values : List Value) (r : Nat) : Value :=
  if a ≤ r ∧ r < a + values.length then values.getD (r - a) .nil else frame.read r

/-- Writes values to the registers from `a` on, up to the top. -/
def Frame.fill (frame : Frame) (a : Nat) (values : List Value) : Frame :=
  { frame.writeAll a values with top := a + values.length }

/-- The values that the results of a call leave in registers. -/
def taken (c : Nat) (results : List Value) : List Value :=
  if c = 0 then results else fit (c - 1) results

variable {frame next : Frame} {a c r start : Nat} {values : List Value}

theorem length_fit (n : Nat) (values : List Value) : (fit n values).length = n := by
  simp only [fit, List.length_append, List.length_take, List.length_replicate]
  omega

theorem getD_fit_of_lt {n r : Nat} (within : r < n) (values : List Value)
    : (fit n values).getD r .nil = values.getD r .nil := by
  simp only [fit, List.getD_eq_getElem?_getD, List.getElem?_append, List.getElem?_replicate,
    List.length_take, List.getElem?_take, within, if_true]
  split
  · rfl
  · rename_i beyond
    rw [List.getElem?_eq_none (by omega)]
    split <;> rfl

theorem fit_length (values : List Value) : fit values.length values = values := by
  simp [fit]

namespace Frame

/-- Writing a register changes nothing but registers. -/
theorem exists_write (frame : Frame) (r : Nat) (value : Value)
    : ∃ registers, frame.write r value = { frame with registers } := by
  unfold write
  split <;> exact ⟨_, rfl⟩

/-- Nor does writing several, by induction over the values. -/
theorem exists_writeAll (frame : Frame) (r : Nat) (values : List Value)
    : ∃ registers, frame.writeAll r values = { frame with registers } := by
  induction values generalizing frame r with
  | nil => exact ⟨frame.registers, rfl⟩
  | cons value rest ih =>
      obtain ⟨registers, first⟩ := exists_write frame r value
      obtain ⟨last, later⟩ := ih { frame with registers } (r + 1)
      refine ⟨last, ?_⟩
      rw [writeAll, first, later]

/-- An activation past the instruction that it executes. -/
def past (frame : Frame) : Frame :=
  { frame with pc := frame.pc + 1 }

/-- Values that are written one after the other are read there, by induction over the values. -/
theorem read_writeAll (frame : Frame) (a : Nat) (values : List Value) (r : Nat)
    : (frame.writeAll a values).read r = frame.readOver a values r := by
  induction values generalizing frame a with
  | nil =>
      have none : ¬(a ≤ r ∧ r < a + ([] : List Value).length) := by simp
      rw [readOver, if_neg none]
      rfl
  | cons value rest ih =>
      rw [writeAll, ih, readOver, readOver, read_write]
      by_cases first : r = a
      · subst first
        rw [if_neg (by omega), if_pos rfl, if_pos (by simp), Nat.sub_self]
        rfl
      · rw [if_neg first]
        by_cases later : a + 1 ≤ r ∧ r < a + 1 + rest.length
        · have shifted : r - a = (r - (a + 1)) + 1 := by omega
          rw [if_pos later, if_pos (by simp only [List.length_cons]; omega), shifted]
          rfl
        · rw [if_neg later, if_neg (by simp only [List.length_cons]; omega)]

theorem read_fill (frame : Frame) (a : Nat) (values : List Value) (r : Nat)
    : (frame.fill a values).read r = frame.readOver a values r :=
  read_writeAll frame a values r

theorem takeResults_zero (frame : Frame) (a : Nat) (results : List Value)
    : frame.takeResults a 0 results = frame.fill a results :=
  rfl

theorem spread_zero (frame : Frame) {i : Instruction} (all : i.b = 0)
    : Vm.spread frame i = frame.fill i.a frame.extra := by
  rw [Vm.spread, if_pos all]
  rfl

/-- Results go to their registers and to no other. -/
theorem read_takeResults (frame : Frame) (a c : Nat) (results : List Value) (r : Nat)
    : (frame.takeResults a c results).read r = frame.readOver a (taken c results) r := by
  unfold takeResults taken
  split
  · exact read_writeAll frame a results r
  · exact read_writeAll frame a (fit (c - 1) results) r

/-- Taking results changes registers, and the top if all results are taken. -/
theorem exists_takeResults (frame : Frame) (a c : Nat) (results : List Value)
    : ∃ registers, frame.takeResults a c results
        = { frame with registers, top := if c = 0 then a + results.length else frame.top } := by
  unfold takeResults
  split
  · obtain ⟨registers, written⟩ := exists_writeAll frame a results
    exact ⟨registers, by rw [written]⟩
  · exact exists_writeAll frame a (fit (c - 1) results)

-----------------------------------------------------------------------------------------
-- Lists of registers
-----------------------------------------------------------------------------------------

/-- A list of registers with a count. -/
theorem span_succ (frame : Frame) (start count : Nat)
    : frame.span start (count + 1) = (List.range' start count).map frame.read := by
  rw [span, if_neg (Nat.succ_ne_zero count)]
  congr 2
  omega

/-- A list of registers that goes up to the top. -/
theorem span_zero (frame : Frame) (start : Nat)
    : frame.span start 0 = (List.range' start (frame.top - start)).map frame.read := by
  rw [span, if_pos rfl]
  congr 2
  omega

/-- A list up to the top has in it what filled the registers: all of it, after the registers that
stand before it.
-/
theorem span_fill (frame : Frame) (a : Nat) (values : List Value) (start : Nat)
    : (frame.fill a values).span start 0
      = (List.range' start (a - start)).map frame.read ++ values.drop (start - a) := by
  rw [span_zero]
  have top : (frame.fill a values).top = a + values.length := rfl
  rw [top]
  apply List.ext_getElem
  · simp only [List.length_map, List.length_range', List.length_append, List.length_drop]
    omega
  · intro position here there
    simp only [List.length_map, List.length_range'] at here
    simp only [List.getElem_map, List.getElem_range', List.getElem_append, List.length_map,
      List.length_range', List.getElem_drop, read_fill, Nat.one_mul]
    split
    · rename_i before
      rw [readOver, if_neg (by omega)]
    · rename_i within
      have place : start + position - a = start - a + (position - (a - start)) := by omega
      rw [readOver, if_pos (by omega), place, List.getD_eq_getElem?_getD,
        List.getElem?_eq_getElem (by omega)]
      rfl

end Frame

/-- An activation is opened on its arguments: the parameters hold the first of them or nil, all other
registers nil, and the others are kept only for a variadic function.
-/
structure Frame.Opened (frame : Frame) (p : Prototype) (arguments : List Value) : Prop where
  parameters {r : Nat} : r < p.parameters.toNat → frame.read r = arguments.getD r .nil
  beyond {r : Nat} : p.parameters.toNat ≤ r → frame.read r = .nil
  extra : frame.extra = if p.variadic then arguments.drop p.parameters.toNat else []
  code : frame.code = p.code
  pc : frame.pc = 0

namespace Vm

variable {m after : Machine} {ref : ClosureRef} {cl : Closure} {i : Instruction} {invoke : Invoke}

/-- An activation can be opened of every closure that exists, on arguments of any number. -/
theorem exists_openFrame (found : m.heap.closures.get ref.handle = .ok cl)
    (arguments : List Value) (depth : Nat)
    : ∃ frame, openFrame ref arguments depth m = .ok frame m
        ∧ frame.Opened (m.prototypes.get cl.prototype) arguments
        ∧ frame.closure = ref ∧ frame.environment = cl.environment ∧ frame.depth = depth
        ∧ frame.prototype = cl.prototype := by
  let p := m.prototypes.get cl.prototype
  have short : (arguments.take p.parameters.toNat).length
      ≤ max (max p.window.toNat p.parameters.toNat) 1 := by
    rw [List.length_take]
    omega
  refine ⟨_, Run.bind_ok (closure_of_get found), ⟨?_, ?_, rfl, rfl, rfl⟩, rfl, rfl, rfl, rfl⟩
  · intro r within
    exact (getD_fit short r).trans (by simp [p, List.getD_eq_getElem?_getD, within])
  · intro r beyond
    refine (getD_fit short r).trans ?_
    rw [List.getD_eq_getElem?_getD, List.getElem?_eq_none]
    · rfl
    · rw [List.length_take]
      exact Nat.le_trans (Nat.min_le_left ..) beyond

-----------------------------------------------------------------------------------------
-- Instructions that pass values
-----------------------------------------------------------------------------------------

/-- An instruction is counted and then does what its operation says. -/
theorem step_eq (invoke : Invoke) (fetched : frame.code[frame.pc]? = some i)
    : step invoke frame
      = (do
          charge
          match i.operation? with
          | none => malformed frame.past (.unknownOpcode i.opcode)
          | some .call =>
              return .call frame.past (frame.read i.a)
                (frame.span (i.a + 1) i.b) (.store i.a i.c)
          | some .tailCall =>
              return .call frame.past (frame.read i.a)
                (frame.span (i.a + 1) i.b) .forward
          | some .ret => return .finish (frame.span i.a i.b)
          | some op => return .next (← execute invoke frame.past op i)) := by
  unfold step
  rw [fetched]
  rfl

end Vm

/-- Where the list of values starts that an instruction passes on if its end is open. -/
def Instruction.open? (i : Instruction) : Option Nat :=
  match i.operation? with
  | some .call | some .tailCall => if i.b = 0 then some (i.a + 1) else none
  | some .ret => if i.b = 0 then some i.a else none
  | _ => none

/-- The values that an instruction passes on: to what it calls, or to its caller. -/
def Vm.Flow.passed : Vm.Flow → List Value
  | .next _ => []
  | .call _ _ arguments _ => arguments
  | .finish results => results

/-- An instruction with an open end passes on the registers up to the top. -/
theorem Vm.passed_of_open {m after : Machine} {i : Instruction} {invoke : Invoke} {flow : Vm.Flow}
    (fetched : frame.code[frame.pc]? = some i) (opens : i.open? = some start)
    (stepped : step invoke frame m = .ok flow after)
    : flow.passed = frame.span start 0 := by
  rw [step_eq invoke fetched] at stepped
  rcases charged : charge m with ⟨⟨⟩, counted⟩ | ⟨halt, counted⟩
  case error => cases (Run.bind_error charged).symm.trans stepped
  replace stepped := (Run.bind_ok charged).symm.trans stepped
  unfold Instruction.open? at opens
  split at opens
  · rename_i operation
    simp only [Option.ite_none_right_eq_some, Option.some.injEq] at opens
    obtain ⟨count, rfl⟩ := opens
    rw [operation, count] at stepped
    cases stepped
    rfl
  · rename_i operation
    simp only [Option.ite_none_right_eq_some, Option.some.injEq] at opens
    obtain ⟨count, rfl⟩ := opens
    rw [operation, count] at stepped
    cases stepped
    rfl
  · rename_i operation
    simp only [Option.ite_none_right_eq_some, Option.some.injEq] at opens
    obtain ⟨count, rfl⟩ := opens
    rw [operation, count] at stepped
    cases stepped
    rfl
  · cases opens

-----------------------------------------------------------------------------------------
-- Stacks on top of others
-----------------------------------------------------------------------------------------

namespace Vm

/-- A stack on top of layers that lie below it; what leaves it resumes these as given. -/
def graft (resume : Resume) (below : List Layer) : Layer → List Layer → Layer × List Layer
  | top, [] => ({ top with resume }, below)
  | top, next :: rest =>
      (top, (graft resume below next rest).1 :: (graft resume below next rest).2)

/-- What leaves a stack at its lowest layer leaves it for good. -/
def Alone : Layer → List Layer → Prop
  | top, [] => top.resume = .forward
  | _, next :: rest => Alone next rest

variable {resume : Resume} {below : List Layer} {top : Layer} {rest : List Layer}

theorem frame_graft (resume : Resume) (below : List Layer) (top : Layer) (rest : List Layer)
    : (graft resume below top rest).1.frame = top.frame := by
  cases rest <;> rfl

theorem graft_frame (resume : Resume) (below : List Layer) (top : Layer) (rest : List Layer)
    (frame : Frame)
    : graft resume below { top with frame } rest
      = ({ (graft resume below top rest).1 with frame }, (graft resume below top rest).2) := by
  cases rest <;> rfl

theorem Alone.goOn (alone : Alone top rest) (frame : Frame) : Alone { top with frame } rest := by
  cases rest <;> exact alone

/-- A stack lies above all that is below it, by induction over its layers. -/
theorem exists_graft_eq (resume : Resume) (below : List Layer) (top : Layer) (rest : List Layer)
    : ∃ above, above ≠ []
        ∧ (graft resume below top rest).1 :: (graft resume below top rest).2 = above ++ below := by
  induction rest generalizing top with
  | nil => exact ⟨[{ top with resume }], by simp, rfl⟩
  | cons next rest ih =>
      obtain ⟨above, -, same⟩ := ih next
      exact ⟨top :: above, by simp, congrArg (top :: ·) same⟩

/-- Results that stay in a stack stay in it on top of others, and those that leave it resume the
layers below; by induction over its layers.
-/
theorem unwind_graft (alone : Alone top rest) (results : List Value)
    : (∃ next, unwind results top.resume rest = .inr next ∧ Alone next.1 next.2
        ∧ unwind results (graft resume below top rest).1.resume (graft resume below top rest).2
          = .inr (graft resume below next.1 next.2))
      ∨ (unwind results top.resume rest = .inl results
        ∧ unwind results (graft resume below top rest).1.resume (graft resume below top rest).2
          = unwind results resume below) := by
  induction rest generalizing top with
  | nil =>
      have forwards : top.resume = .forward := alone
      refine .inr ⟨?_, rfl⟩
      rw [forwards]
      rfl
  | cons caller rest ih =>
      have alone : Alone caller rest := alone
      cases goes : top.resume with
      | store a c =>
          refine .inl ⟨_, rfl, alone.goOn (caller.frame.takeResults a c results), ?_⟩
          simp only [graft, goes, unwind, graft_frame, frame_graft]
      | forward =>
          have deeper := ih alone
          simp only [graft, goes, unwind]
          exact deeper

variable {m after : Machine} {invoke : Invoke} {results : List Value}

/-- A stack goes on by one instruction. -/
def Goes (invoke : Invoke) (s t : (Layer × List Layer) × Machine) : Prop :=
  advance invoke s.1.1 s.1.2 s.2 = .ok (.inr t.1) t.2

/-- A stack goes on by any number of instructions. -/
abbrev Runs (invoke : Invoke) : (Layer × List Layer) × Machine → (Layer × List Layer) × Machine → Prop :=
  Relation.ReflTransGen (Goes invoke)

/-- Results leave a stack at last. -/
def Returns (invoke : Invoke) (s : (Layer × List Layer) × Machine) (results : List Value)
    (after : Machine)
    : Prop :=
  ∃ t, Runs invoke s t ∧ advance invoke t.1.1 t.1.2 t.2 = .ok (.inl results) after

/-- Begins a call on a stack: an activation is opened on top, or results are there at once. -/
def beginCall (invoke : Invoke) (f : Value) (arguments : List Value) (caller : ClosureRef)
    (depth : Nat) (resume : Resume) (callers : List Layer)
    : Vm (List Value ⊕ (Layer × List Layer)) := do
  checkDepth depth
  match ← resolve f with
  | .closure callee => return .inr (⟨← openFrame callee arguments depth, resume⟩, callers)
  | target =>
      let results ← callOther invoke target arguments (some caller) depth
      return unwind results resume callers

/-- What a stack does next, after what its top asks for. -/
def follow (invoke : Invoke) (top : Layer) (callers : List Layer)
    : Flow → Vm (List Value ⊕ (Layer × List Layer))
  | .next frame => return .inr ({ top with frame }, callers)
  | .finish results => return unwind results top.resume callers
  | .call frame f arguments resume =>
      beginCall invoke f arguments frame.closure (frame.depth + 1) resume
        ({ top with frame } :: callers)

theorem advance_eq (invoke : Invoke) (top : Layer) (callers : List Layer)
    : advance invoke top callers = step invoke top.frame >>= follow invoke top callers := by
  unfold advance
  apply congrArg
  funext flow
  cases flow <;> rfl

/-- A stack in a machine, on top of others, goes where it goes alone: on, or out to the others. -/
structure GoesAlong (resume : Resume) (below : List Layer)
    (alone grafted : Vm (List Value ⊕ (Layer × List Layer))) : Prop where
  splits {m stack after}
    : grafted m = .ok (.inr stack) after
      → (∃ next, alone m = .ok (.inr next) after ∧ Alone next.1 next.2
          ∧ stack = graft resume below next.1 next.2)
        ∨ ∃ results, alone m = .ok (.inl results) after ∧ unwind results resume below = .inr stack

namespace GoesAlong

variable {α : Type} {x : Vm α} {f g : α → Vm (List Value ⊕ (Layer × List Layer))}

theorem bind (rest : ∀ a, GoesAlong resume below (f a) (g a))
    : GoesAlong resume below (x >>= f) (x >>= g) := by
  constructor
  intro m stack after ran
  rcases came : x m with ⟨a, middle⟩ | ⟨halt, middle⟩
  · rw [Run.bind_ok came] at ran ⊢
    exact (rest a).splits ran
  · cases (Run.bind_error came).symm.trans ran

theorem deliver (alone : Alone top rest) (results : List Value)
    : GoesAlong resume below (pure (unwind results top.resume rest))
        (pure (unwind results (graft resume below top rest).1.resume
          (graft resume below top rest).2)) := by
  constructor
  intro m stack after ran
  obtain ⟨unwound, rfl⟩ := EStateM.Result.ok.inj ran
  obtain ⟨next, stays, still, same⟩ | ⟨leaves, same⟩ := unwind_graft alone results
  · have stack := Sum.inr.inj (unwound.symm.trans same)
    exact .inl ⟨next, by rw [stays]; rfl, still, stack⟩
  · exact .inr ⟨results, by rw [leaves]; rfl, same.symm.trans unwound⟩

theorem goOn (alone : Alone top rest)
    : GoesAlong resume below (pure (.inr (top, rest))) (pure (.inr (graft resume below top rest))) := by
  constructor
  intro m stack after ran
  cases ran
  exact .inl ⟨_, rfl, alone, rfl⟩

end GoesAlong

/-- What the top of a stack asks for is done alike wherever the stack lies. -/
theorem follow_graft (alone : Alone top rest) (flow : Flow)
    : GoesAlong resume below (follow invoke top rest flow)
        (follow invoke (graft resume below top rest).1 (graft resume below top rest).2 flow) := by
  cases flow with
  | next frame =>
      have further : GoesAlong resume below _ _ := GoesAlong.goOn (alone.goOn frame)
      rw [graft_frame] at further
      exact further
  | finish results => exact GoesAlong.deliver alone results
  | call frame f arguments goes =>
      have grafted (frame' : Frame)
          : graft resume below ⟨frame', goes⟩ ({ top with frame } :: rest)
            = (⟨frame', goes⟩,
                { (graft resume below top rest).1 with frame } :: (graft resume below top rest).2) := by
        rw [graft, graft_frame]
      have still (frame' : Frame) : Alone ⟨frame', goes⟩ ({ top with frame } :: rest) :=
        alone.goOn frame
      apply GoesAlong.bind
      intro _
      apply GoesAlong.bind
      intro target
      have other : GoesAlong resume below
          (callOther invoke target arguments (some frame.closure) (frame.depth + 1)
            >>= fun results => pure (unwind results goes ({ top with frame } :: rest)))
          (callOther invoke target arguments (some frame.closure) (frame.depth + 1)
            >>= fun results => pure (unwind results goes
              ({ (graft resume below top rest).1 with frame }
                :: (graft resume below top rest).2))) := by
        apply GoesAlong.bind
        intro results
        have delivered : GoesAlong resume below _ _ := GoesAlong.deliver (still frame) results
        rw [grafted] at delivered
        exact delivered
      cases target with
      | closure callee =>
          apply GoesAlong.bind
          intro opened
          have further : GoesAlong resume below _ _ := GoesAlong.goOn (still opened)
          rw [grafted] at further
          exact further
      | _ => exact other

theorem advance_graft (alone : Alone top rest)
    : GoesAlong resume below (advance invoke top rest)
        (advance invoke (graft resume below top rest).1 (graft resume below top rest).2) := by
  rw [advance_eq, advance_eq, frame_graft]
  apply GoesAlong.bind
  exact follow_graft alone

/-- While a stack runs on top of others these lie untouched, until its results leave it; and then
it has run as it does alone. By induction over the instructions.
-/
theorem runs_graft {s : (Layer × List Layer) × Machine} (alone : Alone top rest)
    (runs : Runs invoke (graft resume below top rest, m) s)
    : (∃ next, Runs invoke ((top, rest), m) (next, s.2) ∧ Alone next.1 next.2
        ∧ s.1 = graft resume below next.1 next.2)
      ∨ ∃ results middle next, Returns invoke ((top, rest), m) results middle
          ∧ unwind results resume below = .inr next ∧ Runs invoke (next, middle) s := by
  induction runs with
  | refl => exact .inl ⟨(top, rest), .refl, alone, rfl⟩
  | tail _ goes ih =>
      obtain ⟨next, ran, still, same⟩ | ⟨results, middle, next, returned, resumed, ran⟩ := ih
      · rw [Goes, same] at goes
        obtain ⟨later, further, still, same⟩ | ⟨results, left, resumed⟩ := (advance_graft still).splits goes
        · exact .inl ⟨later, ran.tail further, still, same⟩
        · exact .inr ⟨results, _, _, ⟨_, ran, left⟩, resumed, .refl⟩
      · exact .inr ⟨results, middle, next, returned, resumed, ran.tail goes⟩

/-- What runs until results leave is a run of the stack, by induction over the instructions. -/
theorem Returns.runFrames {s : (Layer × List Layer) × Machine}
    (returns : Returns invoke s results after)
    : ∃ steps, runFrames invoke steps s.1.1 s.1.2 s.2 = .ok results after := by
  obtain ⟨t, ran, left⟩ := returns
  induction ran using Relation.ReflTransGen.head_induction_on with
  | refl => exact ⟨1, (Run.bind_ok left).trans rfl⟩
  | head goes _ ih =>
      obtain ⟨steps, rest⟩ := ih
      exact ⟨steps + 1, (Run.bind_ok goes).trans rest⟩

-----------------------------------------------------------------------------------------
-- Calls
-----------------------------------------------------------------------------------------

/-- A call is counted and begins above the activation that makes it. -/
theorem advance_of_call {i : Instruction} (invoke : Invoke) (resume : Resume)
    (callers : List Layer) (fetched : frame.code[frame.pc]? = some i)
    (calls : i.operation? = some .call)
    : advance invoke ⟨frame, resume⟩ callers
      = charge >>= fun _ =>
          beginCall invoke (frame.read i.a) (frame.span (i.a + 1) i.b) frame.closure
            (frame.depth + 1) (.store i.a i.c) (⟨frame.past, resume⟩ :: callers) := by
  rw [advance_eq, step_eq invoke fetched, calls, bind_assoc]
  rfl

/-- What begins on a stack either opens an activation for the call or has its results at once; if
the activation returns results, they are those of the call alone.
-/
theorem beginCall_cases {fuel : Nat} {f : Value} {arguments : List Value} {caller : ClosureRef}
    {depth : Nat} {callers : List Layer} {stack : Layer × List Layer}
    (began : beginCall (call fuel) f arguments caller depth resume callers m
      = .ok (.inr stack) after)
    : (∃ opened, stack = (⟨opened, resume⟩, callers)
        ∧ ∀ results last, Returns (call fuel) ((⟨opened, .forward⟩, []), after) results last
          → Settles (call · f arguments (some caller) depth) m (.ok results last))
      ∨ ∃ results, unwind results resume callers = .inr stack
          ∧ Settles (call · f arguments (some caller) depth) m (.ok results after) := by
  unfold beginCall at began
  rcases checked : checkDepth depth m with ⟨⟨⟩, here⟩ | ⟨halt, here⟩
  case error => cases (Run.bind_error checked).symm.trans began
  replace began := (Run.bind_ok checked).symm.trans began
  rcases resolved : resolve f here with ⟨target, there⟩ | ⟨halt, there⟩
  case error => cases (Run.bind_error resolved).symm.trans began
  replace began := (Run.bind_ok resolved).symm.trans began
  have alone (more : Nat)
      : call (more + 1) f arguments (some caller) depth m
        = (match target with
            | .closure ref => do
                let frame ← openFrame ref arguments depth
                runFrames (call more) more ⟨frame, .forward⟩ []
            | target => callOther (call more) target arguments (some caller) depth) there :=
    (Run.bind_ok checked).trans (Run.bind_ok resolved)
  have other
      (began : (callOther (call fuel) target arguments (some caller) depth
        >>= fun results => pure (unwind results resume callers)) there = .ok (.inr stack) after)
      : ∃ results, unwind results resume callers = .inr stack
          ∧ callOther (call fuel) target arguments (some caller) depth there = .ok results after := by
    rcases ran : callOther (call fuel) target arguments (some caller) depth there with
      ⟨results, last⟩ | ⟨halt, last⟩
    case error => cases (Run.bind_error ran).symm.trans began
    replace began := (Run.bind_ok ran).symm.trans began
    obtain ⟨unwound, rfl⟩ := EStateM.Result.ok.inj began
    exact ⟨results, unwound, rfl⟩
  cases target with
  | closure ref =>
      rcases opens : openFrame ref arguments depth there with ⟨opened, last⟩ | ⟨halt, last⟩
      case error => cases (Run.bind_error opens).symm.trans began
      cases (Run.bind_ok opens).symm.trans began
      refine .inl ⟨opened, rfl, fun results last returns => ⟨trivial, ?_⟩⟩
      obtain ⟨steps, ran⟩ := returns.runFrames
      refine ⟨max fuel steps + 1, (alone _).trans ((Run.bind_ok opens).trans ?_)⟩
      have more := runFrames_below (call_below (Nat.le_max_left fuel steps))
        (Nat.le_max_right fuel steps) ⟨opened, .forward⟩ []
      have same := more.eq_of_settled after (by rw [ran]; trivial)
      exact same.trans ran
  | _ =>
      obtain ⟨results, unwound, ran⟩ := other began
      exact .inr ⟨results, unwound, trivial, fuel + 1, (alone fuel).trans ran⟩

/-- How a call on top of a stack goes: what is called runs above the caller, which lies untouched
below it; and once it returns, its results are those that the call gives alone, and the caller goes on
as it was but for the registers that take them.
-/
theorem runs_of_call {fuel : Nat} {i : Instruction} {callers : List Layer}
    {s : (Layer × List Layer) × Machine} (fetched : frame.code[frame.pc]? = some i)
    (calls : i.operation? = some .call)
    (runs : Relation.TransGen (Goes (call fuel)) ((⟨frame, resume⟩, callers), m) s)
    : (∃ above, above ≠ [] ∧ s.1.1 :: s.1.2 = above ++ ⟨frame.past, resume⟩ :: callers)
      ∨ ∃ counted results middle, charge m = .ok () counted
          ∧ Settles
              (call · (frame.read i.a) (frame.span (i.a + 1) i.b) (some frame.closure)
                (frame.depth + 1))
              counted (.ok results middle)
          ∧ Runs (call fuel)
              ((⟨frame.past.takeResults i.a i.c results, resume⟩, callers), middle) s := by
  obtain ⟨⟨stack, reached⟩, goes, runs⟩ := Relation.TransGen.head'_iff.mp runs
  have first : advance (call fuel) ⟨frame, resume⟩ callers m = .ok (.inr stack) reached := goes
  rw [advance_of_call _ resume callers fetched calls] at first
  rcases counts : charge m with ⟨⟨⟩, counted⟩ | ⟨halt, counted⟩
  case error => cases (Run.bind_error counts).symm.trans first
  replace first := (Run.bind_ok counts).symm.trans first
  obtain ⟨opened, rfl, alone⟩ | ⟨results, unwound, alone⟩ := beginCall_cases first
  · have grafted : ((⟨opened, .store i.a i.c⟩, ⟨frame.past, resume⟩ :: callers) : Layer × List Layer)
        = graft (.store i.a i.c) (⟨frame.past, resume⟩ :: callers) ⟨opened, .forward⟩ [] := rfl
    have starts : Alone ⟨opened, .forward⟩ [] := rfl
    rw [grafted] at runs
    obtain ⟨next, -, -, same⟩ | ⟨results, middle, next, returned, resumed, runs⟩ :=
      runs_graft starts runs
    · rw [same]
      exact .inl (exists_graft_eq ..)
    · cases resumed
      exact .inr ⟨counted, results, middle, rfl, alone results middle returned, runs⟩
  · cases unwound
    exact .inr ⟨counted, results, reached, rfl, alone, runs⟩

end Vm

end HookMachine
