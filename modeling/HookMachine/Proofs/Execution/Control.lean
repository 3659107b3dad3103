import HookMachine.Proofs.Bounds.Log
import HookMachine.Proofs.Deeds.Activations
import HookMachine.Proofs.Deeds.Courses
import HookMachine.Proofs.Instruction.Places

/-!
Where control goes while code executes. An activation comes from an instruction to a place that
the instruction leads to, so it never leaves closed code, whatever it calls. Nor does it then fail
by running past the end, unless what it calls does.
-/

namespace HookMachine

variable {α β : Type} {m after : Machine} {frame next : Frame} {i : Instruction}
  {code : Array Instruction}
  {place : Nat} {invoke : Invoke}

-----------------------------------------------------------------------------------------
-- Activations that do not move
-----------------------------------------------------------------------------------------

/-- An activation stays where it is in its code. -/
structure Frame.Rests (frame next : Frame) : Prop where
  code : next.code = frame.code
  pc : next.pc = frame.pc

namespace Frame.Rests

theorem refl (frame : Frame) : frame.Rests frame :=
  ⟨rfl, rfl⟩

theorem trans {last : Frame} (first : frame.Rests next) (second : next.Rests last)
    : frame.Rests last :=
  ⟨second.code.trans first.code, second.pc.trans first.pc⟩

theorem write (frame : Frame) (r : Nat) (value : Value) : frame.Rests (frame.write r value) := by
  unfold Frame.write
  split <;> exact ⟨rfl, rfl⟩

/-- By induction over the values. -/
theorem writeAll (frame : Frame) (r : Nat) (values : List Value)
    : frame.Rests (frame.writeAll r values) := by
  induction values generalizing frame r with
  | nil => exact .refl frame
  | cons value rest ih => exact (write frame r value).trans (ih _ _)

theorem takeResults (frame : Frame) (a c : Nat) (results : List Value)
    : frame.Rests (frame.takeResults a c results) := by
  have written := writeAll frame a
  unfold Frame.takeResults
  split
  · exact ⟨(written results).code, (written results).pc⟩
  · exact written _

theorem spread (frame : Frame) (i : Instruction) : frame.Rests (Vm.spread frame i) := by
  have written := writeAll frame i.a
  unfold Vm.spread
  split
  · exact ⟨(written frame.extra).code, (written frame.extra).pc⟩
  · exact written _

end Frame.Rests

-----------------------------------------------------------------------------------------
-- Where instructions lead activations
-----------------------------------------------------------------------------------------

/-- An activation has come in its code from a place to one that the instruction there leads to. -/
structure Frame.Led (frame : Frame) (place : Nat) (i : Instruction) (next : Frame) : Prop where
  code : next.code = frame.code
  leads : i.Leads frame.code place next.pc

namespace Vm

open Run (Gives)

theorem capture_rests (frame : Frame) (descriptor : Instruction)
    : Gives (capture frame descriptor) fun made =>
        frame.Rests made.1 ∧ descriptor.captures = true := by
  unfold capture Instruction.captures
  cases descriptor.operation? with
  | none => exact .fail _
  | some op =>
      cases op with
      | move =>
          dsimp only
          split
          · exact .pure ⟨.refl frame, rfl⟩
          · exact .andThen fun _ => .pure ⟨⟨rfl, rfl⟩, rfl⟩
      | getUpval => exact .andThen fun _ => .pure ⟨.refl frame, rfl⟩
      | _ => exact .fail _

/-- What is captured is described by the words that are passed, by induction over them. -/
theorem captures_passes (count : Nat) (frame : Frame)
    : Gives (captures count frame) fun made =>
        made.1.code = frame.code ∧ made.1.pc = frame.pc + count
          ∧ ∀ k < count, ∃ word, frame.code[frame.pc + k]? = some word ∧ word.captures = true := by
  induction count generalizing frame with
  | zero => exact .pure ⟨rfl, rfl, nofun⟩
  | succ count ih =>
      unfold captures
      split
      · exact .fail _
      · rename_i word found
        refine (capture_rests { frame with pc := frame.pc + 1 } word).bind
          fun first ⟨rests, captures⟩ => ?_
        refine (ih first.1).bind fun others ⟨same, behind, words⟩ =>
          .pure ⟨?_, ?_, fun k less => ?_⟩
        · exact same.trans rests.code
        · rw [behind, rests.pc]
          dsimp only
          omega
        · cases k with
          | zero => exact ⟨word, found, captures⟩
          | succ k =>
              obtain ⟨later, there, describes⟩ := words k (Nat.lt_of_succ_lt_succ less)
              rw [rests.code, rests.pc] at there
              have further : frame.pc + (k + 1) = frame.pc + 1 + k := by omega
              exact ⟨later, further ▸ there, describes⟩

variable (arrived : frame.pc = place + 1)

include arrived

theorem led_of_rests (stays : i.operation? ≠ some .ret) (rests : frame.Rests next)
    : frame.Led place i next := by
  refine ⟨rests.code, ?_⟩
  rw [rests.pc, arrived]
  exact .on stays

theorem led_of_skipIf (stays : i.operation? ≠ some .ret) {condition : Bool}
    (skips : condition = true → i.skips = true) (rests : frame.Rests next)
    : frame.Led place i (next.skipIf condition) := by
  cases condition with
  | false => exact led_of_rests arrived stays rests
  | true =>
      refine ⟨rests.code, ?_⟩
      change i.Leads frame.code place (next.pc + 1)
      rw [rests.pc, arrived]
      exact .skip (skips rfl)

theorem jump_led (jumps : i.jumps = true) (rests : frame.Rests next)
    : Gives (jump next i.offset) (frame.Led place i) := by
  unfold jump
  dsimp only
  split
  · exact .fail _
  · have there := rests.pc.trans arrived
    refine .pure ⟨rests.code, .jump jumps ((next.pc : Int) + i.offset).toNat ?_⟩
    omega

theorem close_led (closes : i.operation? = some .closure)
    : Gives (close frame i) (frame.Led place i) := by
  refine .andThen fun p => ?_
  split
  · exact .fail _
  · refine .andThen fun nested =>
      (captures_passes _ frame).bind fun made ⟨same, behind, words⟩ => ?_
    refine .andThen fun ref => .pure ?_
    have rests := Frame.Rests.write made.1 i.a (.closure ref)
    refine ⟨rests.code.trans same, ?_⟩
    rw [rests.pc, behind, arrived]
    rw [arrived] at words
    exact .close closes _ words

theorem loopNext_led (loops : i.operation? = some .forLoop)
    : Gives (loopNext frame i) (frame.Led place i) := by
  have jumps : i.jumps = true := by rw [Instruction.jumps, loops]
  have stays : i.operation? ≠ some .ret := by simp [loops]
  refine .andThen fun step => .andThen fun index => .andThen fun limit => ?_
  have advanced := Frame.Rests.write frame i.a (.number (index + step))
  dsimp only
  split <;> split
  · exact jump_led arrived jumps (advanced.trans (.write ..))
  · exact .pure (led_of_rests arrived stays advanced)
  · exact jump_led arrived jumps (advanced.trans (.write ..))
  · exact .pure (led_of_rests arrived stays advanced)

/-- An instruction that executes leads its activation to where it can lead. -/
theorem execute_led (invoke : Invoke) {op : Opcode} (operation : i.operation? = some op)
    (other : op ≠ .ret)
    : Gives (execute invoke frame op i) (frame.Led place i) := by
  have stays : i.operation? ≠ some .ret := by
    rw [operation]
    exact fun same => other (Option.some.inj same)
  have on (next : Frame) (rests : frame.Rests next)
      : Gives (pure next : Vm Frame) (frame.Led place i) :=
    .pure (led_of_rests arrived stays rests)
  have written (value : Value)
      : Gives (pure (frame.write i.a value) : Vm Frame) (frame.Led place i) :=
    on _ (.write ..)
  have rested : Gives (pure frame : Vm Frame) (frame.Led place i) := on _ (.refl frame)
  cases op with
  | move | not => exact written _
  | loadK | newTable | unm | len | concat => exact .andThen fun _ => written _
  | getUpval | getGlobal | getTable => exact .andThen fun _ => .andThen fun _ => written _
  | setUpval | setGlobal => exact .andThen fun _ => .andThen fun _ => rested
  | setTable => exact .andThen fun _ => .andThen fun _ => .andThen fun _ => rested
  | self =>
      exact .andThen fun _ => .andThen fun _ => on _ ((Frame.Rests.write ..).trans (.write ..))
  | add | sub | mul | div | mod | pow =>
      exact .andThen fun _ => .andThen fun _ => .andThen fun _ => .andThen fun _ => written _
  | loadNil => exact on _ (.writeAll ..)
  | vararg => exact on _ (.spread frame i)
  | loadBool =>
      have skips (jumps : decide (i.c ≠ 0) = true) : i.skips = true := by
        rw [Instruction.skips, operation]
        exact jumps
      exact .pure (led_of_skipIf arrived stays skips (.write ..))
  | eq =>
      have skips : i.skips = true := by rw [Instruction.skips, operation]
      exact .andThen fun _ => .andThen fun _ =>
        .pure (led_of_skipIf arrived stays (fun _ => skips) (.refl _))
  | lt | le =>
      have skips : i.skips = true := by rw [Instruction.skips, operation]
      exact .andThen fun _ => .andThen fun _ => .andThen fun _ =>
        .pure (led_of_skipIf arrived stays (fun _ => skips) (.refl _))
  | test =>
      have skips : i.skips = true := by rw [Instruction.skips, operation]
      exact .pure (led_of_skipIf arrived stays (fun _ => skips) (.refl _))
  | testSet =>
      have skips : i.skips = true := by rw [Instruction.skips, operation]
      unfold execute
      dsimp only
      split
      · exact written _
      · exact .pure (led_of_skipIf arrived stays (fun _ => skips) (.refl _))
  | jmp => exact jump_led arrived (by rw [Instruction.jumps, operation]) (.refl _)
  | forPrep =>
      have jumps : i.jumps = true := by rw [Instruction.jumps, operation]
      exact .andThen fun _ => .andThen fun _ => .andThen fun _ => jump_led arrived jumps (.write ..)
  | forLoop => exact loopNext_led arrived operation
  | closure => exact close_led arrived operation
  | setList =>
      have same : Gives (setList frame i) frame.Rests := setList_gives (.refl frame) i
      exact ⟨fun ran => led_of_rests arrived stays (same.result ran)⟩
  | tForLoop => exact .fail _
  | close | call | tailCall | ret => exact rested


end Vm

-----------------------------------------------------------------------------------------
-- Stacks and calls
-----------------------------------------------------------------------------------------

/-- If an activation is one of some code, there is an instruction that it comes to. -/
def Frame.Inside (code : Array Instruction) (frame : Frame) : Prop :=
  frame.code = code → frame.pc < code.size

namespace Frame.Inside

open Instruction (Closed)

theorem rests (inside : frame.Inside code) (rests : frame.Rests next) : next.Inside code := by
  intro same
  rw [rests.pc]
  exact inside (rests.code.symm.trans same)

/-- In closed code an instruction leads an activation to another. -/
theorem led (closed : Closed code) (fetched : frame.code[frame.pc]? = some i)
    (led : frame.Led frame.pc i next)
    : next.Inside code := by
  intro same
  obtain rfl := led.code.symm.trans same
  exact closed.leads fetched led.leads

/-- An activation is opened at the first instruction. -/
theorem opened (closed : Closed code) {ref : ClosureRef} {arguments : List Value} {depth : Nat}
    (opens : Vm.openFrame ref arguments depth m = .ok frame after)
    : frame.Inside code := by
  obtain ⟨c, middle, -, further⟩ := Run.of_bind_ok opens
  obtain ⟨p, last, -, ends⟩ := Run.of_bind_ok further
  cases ends
  exact fun _ => closed.starts

/-- Results are delivered to activations that stay where they are. -/
theorem delivered {results : List Value} {resume : Resume} {callers rest : List Layer} {top : Layer}
    (inside : ∀ layer ∈ callers, layer.frame.Inside code)
    (delivered : unwind results resume callers = .inr (top, rest))
    : ∀ layer ∈ top :: rest, layer.frame.Inside code := by
  obtain ⟨above, old, a, c, rfl, rfl⟩ := unwind_delivers delivered
  have below := (List.forall_mem_append.mp inside).2
  refine List.forall_mem_cons.mpr ⟨?_, (List.forall_mem_cons.mp below).2⟩
  exact (below old (List.mem_cons_self ..)).rests (.takeResults ..)

/-- What an instruction leaves of a stack is inside. -/
theorem advance (closed : Closed code) {top below : Layer} {callers rest : List Layer}
    (fetched : top.frame.code[top.frame.pc]? = some i)
    (inside : ∀ layer ∈ callers, layer.frame.Inside code)
    (ran : (Plan.advance top callers i).run invoke m = .ok (.inr (below, rest)) after)
    : ∀ layer ∈ below :: rest, layer.frame.Inside code := by
  by_cases returns : i.operation? = some .ret
  · have delivers : Plan.advance top callers i
        = pure (unwind ((Plan.past top).frame.span i.a i.b) top.resume callers) := by
      unfold Plan.advance Plan.perform
      rw [returns]
      rfl
    rw [delivers] at ran
    exact delivered inside (EStateM.Result.ok.inj ran).1
  have past : (Plan.past top).frame.Inside code := led closed fetched ⟨rfl, .on returns⟩
  have as := Plan.advance_as top callers i
  generalize Plan.advance top callers i = plan at as ran
  cases as with
  | calls resume called =>
      have calling : ∀ layer ∈ Plan.past top :: callers, layer.frame.Inside code :=
        List.forall_mem_cons.mpr ⟨past, inside⟩
      rcases Plan.invokes_ok ran with ⟨ref, callee, -, opens, rfl, rfl⟩ | ⟨results, delivers⟩
      · exact List.forall_mem_cons.mpr ⟨opened closed opens, calling⟩
      · exact delivered calling delivers
  | executes op operation uncalled =>
      rw [Plan.run_bind, Plan.run_execute] at ran
      obtain ⟨now, middle, executed, ends⟩ := Run.of_bind_ok ran
      cases ends
      refine List.forall_mem_cons.mpr ⟨?_, inside⟩
      have other : op ≠ .ret := fun is => returns (is ▸ operation)
      have leads : Run.Gives (Vm.execute invoke (Plan.past top).frame op _) _ :=
        Vm.execute_led rfl invoke operation other
      have same := leads.result executed
      exact led closed fetched ⟨same.code, same.leads⟩
  | returns results operation => exact absurd operation returns
  | fails fault => cases ran

end Frame.Inside

/-- The activations that are open at a moment are inside. -/
def Moment.Inside (code : Array Instruction) (moment : Moment) : Prop :=
  ∀ frame ∈ moment.opened, frame.Inside code

/-- What follows a result is looked at for that result only. -/
theorem Moment.inside_following {outcome : EStateM.Result (Halt Fault) Machine α}
    {more : α → Machine → List Moment}
    (later : ∀ a after, outcome = .ok a after → ∀ moment ∈ more a after, moment.Inside code)
    : ∀ moment ∈ following outcome more, moment.Inside code := by
  rcases outcome with ⟨a, after⟩ | ⟨halt, after⟩
  · exact later a after rfl
  · exact fun _ member => absurd member List.not_mem_nil

/-- By induction over the calls of a course. -/
theorem Course.inside_log {record : Invocation → Machine → List Moment}
    (calls : ∀ call now, ∀ moment ∈ record call now, moment.Inside code) (course : Course α)
    : ∀ moment ∈ course.log invoke record, moment.Inside code := by
  induction course with
  | ends outcome => exact fun _ member => absurd member List.not_mem_nil
  | calls call now next ih =>
      exact List.forall_mem_append.mpr
        ⟨calls call now, Moment.inside_following fun results after _ => ih results after⟩
  | asks request now next ih => exact Moment.inside_following fun reply after _ => ih reply after

theorem Vm.fetched_of_fetch (fetches : Vm.fetch frame m = .ok i after)
    : frame.code[frame.pc]? = some i := by
  unfold Vm.fetch at fetches
  cases found : frame.code[frame.pc]? with
  | none =>
      rw [found] at fetches
      cases fetches
  | some there =>
      rw [found] at fetches
      obtain ⟨_, _, -, ends⟩ := Run.of_bind_ok fetches
      cases ends
      rfl

/-- By induction over the fuel of a stack. -/
theorem inside_stackLog (closed : Instruction.Closed code)
    {record : List Frame → Invocation → Machine → List Moment} {outer : List Frame}
    (calls : ∀ outer, (∀ frame ∈ outer, frame.Inside code)
      → ∀ call now, ∀ moment ∈ record outer call now, moment.Inside code)
    (outside : ∀ frame ∈ outer, frame.Inside code) (fuel : Nat) {top : Layer} {callers : List Layer}
    (inside : ∀ layer ∈ top :: callers, layer.frame.Inside code) (m : Machine)
    : ∀ moment ∈ stackLog invoke record outer fuel top callers m, moment.Inside code := by
  induction fuel generalizing top callers m with
  | zero => exact fun _ member => absurd member List.not_mem_nil
  | succ fuel ih =>
      obtain ⟨first, others⟩ := List.forall_mem_cons.mp inside
      have opened : ∀ frame ∈ top.frame :: (callers.map (·.frame) ++ outer), frame.Inside code := by
        refine List.forall_mem_cons.mpr ⟨first, List.forall_mem_append.mpr ⟨?_, outside⟩⟩
        exact List.forall_mem_map.mpr others
      refine List.forall_mem_cons.mpr ⟨opened, Moment.inside_following fun i charged fetches => ?_⟩
      refine List.forall_mem_append.mpr ⟨Course.inside_log (calls _ opened) _, ?_⟩
      refine Moment.inside_following fun flow after ran => ?_
      cases flow with
      | inl results => exact fun _ member => absurd member List.not_mem_nil
      | inr stack => exact ih (.advance closed (Vm.fetched_of_fetch fetches) others ran) after

/-- By induction over the fuel of a call. -/
theorem inside_callLog (closed : Instruction.Closed code) (fuel : Nat) (outer : List Frame)
    (outside : ∀ frame ∈ outer, frame.Inside code) (call : Invocation) (m : Machine)
    : ∀ moment ∈ callLog fuel outer call m, moment.Inside code := by
  induction fuel generalizing outer call m with
  | zero => exact fun _ member => absurd member List.not_mem_nil
  | succ fuel ih =>
      unfold callLog
      refine List.forall_mem_append.mpr ⟨Course.inside_log (ih outer outside) _, ?_⟩
      refine Moment.inside_following fun flow after ran => ?_
      cases flow with
      | inl results => exact fun _ member => absurd member List.not_mem_nil
      | inr frame =>
          obtain ⟨ref, -, opens⟩ := Plan.start_ok ran
          refine inside_stackLog closed ih outside fuel ?_ after
          exact List.forall_mem_singleton.mpr (.opened closed opens)

end HookMachine
