import HookMachine.Proofs.Execution.Culprits
import HookMachine.Proofs.Execution.Recursion

/-!
Running past the end of code. Of all that an instruction does only fetching it can fail by that,
so an activation of closed code never does by itself: if it fails so, something that it calls has.
Assembled code is closed, unless control is led past the return at its end.
-/

namespace HookMachine

variable {α β : Type} {m after : Machine} {frame : Frame} {i : Instruction}
  {code : Array Instruction}
  {invoke : Invoke}

-----------------------------------------------------------------------------------------
-- What instructions fail by
-----------------------------------------------------------------------------------------

/-- An operation does not fail by running past the end of code. -/
structure Vm.Spares (x : Vm α) : Prop where
  spared {m pc after} : x m ≠ .error (.failed (.malformed pc .pastEnd)) after

/-- Calls do not fail by that. -/
abbrev Invoke.Spares (invoke : Invoke) : Prop :=
  ∀ f arguments caller depth, Vm.Spares (invoke f arguments caller depth)

namespace Vm.Spares

variable {x : Vm α} {f : α → Vm β}

theorem pure (a : α) : Spares (pure a) :=
  ⟨nofun⟩

/-- What comes second may know what the first results in. -/
theorem follow {post : α → Prop} (first : Spares x) (gives : Run.Gives x post)
    (rest : ∀ a, post a → Spares (f a))
    : Spares (x >>= f) := by
  refine ⟨fun {m pc after} failed => ?_⟩
  rcases Run.of_bind_error failed with failed | ⟨a, middle, came, failed⟩
  · exact first.spared failed
  · exact (rest a (gives.result came)).spared failed

theorem bind (first : Spares x) (rest : ∀ a, Spares (f a)) : Spares (x >>= f) :=
  have any : Run.Gives x fun _ => True := ⟨fun _ => trivial⟩
  first.follow any fun a _ => rest a

end Vm.Spares

/-- A malformed instruction is reported for something else. -/
theorem Frame.Flawed.ne_pastEnd {pc : Nat} {why : Malformation} (flawed : frame.Flawed m i pc why)
    : why ≠ .pastEnd := by
  cases flawed with
  | descriptor _ _ _ _ misspecifies => cases misspecifies <;> nofun
  | _ => nofun

namespace Vm

/-- Where there is an instruction it does not fail by running past the end, unless a call does that it
makes.
-/
theorem step_spares (spares : Invoke.Spares invoke) (fetched : frame.code[frame.pc]? = some i)
    : Spares (step invoke frame) := by
  refine ⟨fun {m pc after} failed => ?_⟩
  rcases step_malformed failed with reports | passes
  · cases reports with
    | pastEnd past => cases fetched.symm.trans past
    | flawed _ flawed => exact flawed.ne_pastEnd rfl
  · cases passes with
    | called calls => cases calls.symm.trans failed
    | handled _ _ failed => exact (spares ..).spared failed

/-- An activation goes on from an instruction where it is led. -/
def Flow.Led (frame : Frame) (i : Instruction) : Flow → Prop
  | .next after | .call after .. => frame.Led frame.pc i after
  | .finish _ => True

theorem step_led (invoke : Invoke) (fetched : frame.code[frame.pc]? = some i)
    : Run.Gives (step invoke frame) (Flow.Led frame i) := by
  rw [step_eq invoke fetched]
  refine .andThen fun _ => ?_
  have on (stays : i.operation? ≠ some .ret) : frame.Led frame.pc i frame.past := ⟨rfl, .on stays⟩
  split
  · exact .fail _
  · rename_i operation
    exact .pure (on (by rw [operation]; nofun))
  · rename_i operation
    exact .pure (on (by rw [operation]; nofun))
  · exact .pure trivial
  · rename_i op _ _ returns operation
    have led : Run.Gives (execute invoke frame.past op i) (frame.past.Led frame.pc i) :=
      execute_led rfl invoke operation returns
    exact led.bind fun next led => .pure ⟨led.code, led.leads⟩

/-- An activation of closed code does not run past its end unless what it calls does, by induction
over its instructions.
-/
theorem runAlone_spares (closed : Instruction.Closed code) (spares : Invoke.Spares invoke)
    (fuel : Nat) (same : frame.code = code) (inside : frame.pc < code.size)
    : Spares (runAlone invoke fuel frame) := by
  induction fuel generalizing frame with
  | zero => exact ⟨nofun⟩
  | succ fuel ih =>
      have fetched : frame.code[frame.pc]? = some code[frame.pc] :=
        same ▸ Array.getElem?_eq_getElem inside
      have goes {next : Frame} (led : frame.Led frame.pc code[frame.pc] next)
          : next.code = code ∧ next.pc < code.size :=
        ⟨led.code.trans same, Frame.Inside.led closed fetched led (led.code.trans same)⟩
      refine (step_spares spares fetched).follow (step_led invoke fetched) fun flow led => ?_
      cases flow with
      | next frame => exact ih (goes led).1 (goes led).2
      | finish results => exact .pure _
      | call frame f arguments resume =>
          refine (spares ..).bind fun results => ?_
          cases resume with
          | store a c =>
              have rests := Frame.Rests.takeResults frame a c results
              exact ih (rests.code.trans (goes led).1) (rests.pc ▸ (goes led).2)
          | forward => exact .pure _

end Vm

-----------------------------------------------------------------------------------------
-- Assembled code
-----------------------------------------------------------------------------------------

namespace Assembler

open Instruction (Closed)

variable {start : Prototype} {items : List Item}

/-- Activations of assembled code never run past its end. -/
structure Stays (start : Prototype) (items : List Item) : Prop where
  /-- Whenever an instruction comes up in a call, or in a call within it, there is one in the code
  for every activation of it that is open.
  -/
  inside
    : ∀ fuel call m, ∀ moment ∈ callLog fuel [] call m,
        ∀ frame ∈ moment.opened, frame.Inside (built start items).code
  /-- A closure fails by running past the end only if something does that it calls. -/
  spared
    : ∀ invoke : Invoke, invoke.Spares
      → ∀ (m : Machine) (ref : ClosureRef) c, m.heap.closures.get ref.handle = .ok c
      → (m.prototypes.get c.prototype).code = (built start items).code
      → ∀ arguments depth fuel pc after,
        (do Vm.runAlone invoke fuel (← Vm.openFrame ref arguments depth) : Vm (List Value)) m
          ≠ .error (.failed (.malformed pc .pastEnd)) after
  /-- Where control leaves what was emitted there is a return. -/
  ends
    : ∀ (place : Nat) i, (built start items).code[place]? = some i
      → (partly start items).code[place]? = some i ∨ i.operation? = some .ret

/-- Assembled code is not left, whatever it is put together from, as long as jumps go no further
than to its end and none of its instructions leads past the return there.
-/
theorem stays_within (start : Prototype) (items : List Item)
    (jumps : ∀ (place : Nat) i, (partly start items).code[place]? = some i → i.jumps = true
      → (place : Int) + 1 + i.offset ≤ (partly start items).code.size)
    (straight : ∀ (place : Nat) i, (partly start items).code[place]? = some i
      → ¬Bypasses (partly start items).code place i)
    : Stays start items := by
  have closed := closed_built jumps straight
  constructor
  case inside =>
    intro fuel call m
    exact inside_callLog closed fuel [] (fun _ member => absurd member List.not_mem_nil) call m
  case spared =>
    intro invoke spares m ref c found code arguments depth fuel pc after
    obtain ⟨frame, opens, opened, -⟩ := Vm.exists_openFrame found arguments depth
    rw [Run.bind_ok opens]
    have runs := Vm.runAlone_spares closed spares fuel (opened.code.trans code)
      (opened.pc ▸ closed.starts)
    exact runs.spared
  case ends =>
    intro place i held
    have whole : built start items = (finish.run (partly start items)).2 := rfl
    rw [whole] at held
    rcases code_finish (partly start items) with ⟨-, same⟩ | ⟨-, last, operation, same⟩
    · rw [same] at held
      exact .inl held
    · rw [same, Array.getElem?_push] at held
      split at held
      · cases held
        exact .inr operation
      · exact .inl held

/-- A loop, behind which control goes on by a conditional jump to the end. -/
def countdown : List Item :=
  [.emit (.asbx .forPrep 0 0), .emit (.asbx .forLoop 0 (-1)), .emit (.abc .test 0 0 1),
    .emit (.asbx .jmp 0 0)]

theorem stays_within_countdown : Stays {} countdown := by
  have bounded : ∀ place : Fin (partly {} countdown).code.size,
      (partly {} countdown).code[place].jumps = true
      → (place.val : Int) + 1 + (partly {} countdown).code[place].offset ≤ 4 := by
    decide
  have straight : ∀ place : Fin (partly {} countdown).code.size,
      ¬Bypasses (partly {} countdown).code place.val (partly {} countdown).code[place] := by
    decide
  refine stays_within {} countdown (fun place i held jumps => ?_) fun place i held => ?_
  · obtain ⟨within, rfl⟩ := Array.getElem?_eq_some_iff.mp held
    exact bounded ⟨place, within⟩ jumps
  · obtain ⟨within, rfl⟩ := Array.getElem?_eq_some_iff.mp held
    exact straight ⟨place, within⟩

end Assembler
end HookMachine
