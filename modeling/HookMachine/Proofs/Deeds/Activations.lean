import HookMachine.Proofs.Deeds.Runs
import HookMachine.Proofs.Likeness.Frames

/-!
Activations and their closures. An activation runs in the environment that its closure had when it was
opened, whatever it executes, and gives that environment to the closures that it makes. A closure keeps
its environment for as long as it is there.
-/

namespace HookMachine

variable {ε α β : Type} {m after : Machine} {frame : Frame} {i : Instruction}

-----------------------------------------------------------------------------------------
-- What operations result in
-----------------------------------------------------------------------------------------

/-- Whatever an operation results in is as `post` says. -/
structure Run.Gives (x : Run ε α) (post : α → Prop) : Prop where
  result {m a after} : x m = .ok a after → post a

namespace Run.Gives

variable {x : Run ε α} {f : α → Run ε β} {post : α → Prop} {last : β → Prop}

theorem pure {a : α} (holds : post a) : Gives (pure a : Run ε α) post := by
  refine ⟨fun ran => ?_⟩
  cases ran
  exact holds

theorem fail (error : ε) : Gives (throw (.failed error) : Run ε α) post :=
  ⟨fun ran => nomatch ran⟩

theorem bind (first : Gives x post) (rest : ∀ a, post a → Gives (f a) last)
    : Gives (x >>= f) last := by
  refine ⟨fun {m b after} ran => ?_⟩
  rcases came : x m with ⟨a, middle⟩ | ⟨halt, middle⟩
  · rw [Run.bind_ok came] at ran
    exact (rest a (first.result came)).result ran
  · rw [Run.bind_error came] at ran
    cases ran

/-- What comes second takes no notice of what the first results in. -/
theorem andThen (rest : ∀ a, Gives (f a) last) : Gives (x >>= f) last :=
  have any : Gives x fun _ => True := ⟨fun _ => trivial⟩
  any.bind fun a _ => rest a

end Run.Gives

-----------------------------------------------------------------------------------------
-- What lasts
-----------------------------------------------------------------------------------------

/-- What holds of an activation whatever is in its registers and wherever it goes on. -/
structure Frame.Lasting (good : Frame → Prop) : Prop where
  registers {frame : Frame} (registers) : good frame → good { frame with registers }
  top {frame : Frame} (top) : good frame → good { frame with top }
  pc {frame : Frame} (pc) : good frame → good { frame with pc }

namespace Frame.Lasting

variable {good : Frame → Prop} (lasts : Frame.Lasting good)

include lasts

theorem write (holds : good frame) (r : Nat) (value : Value) : good (frame.write r value) := by
  unfold Frame.write
  split
  · exact lasts.registers _ holds
  · exact lasts.registers _ holds

theorem writeAll (holds : good frame) (r : Nat) (values : List Value)
    : good (frame.writeAll r values) := by
  induction values generalizing frame r with
  | nil => exact holds
  | cons value rest ih => exact ih (lasts.write holds r value) (r + 1)

theorem skipIf (holds : good frame) (condition : Bool) : good (frame.skipIf condition) := by
  unfold Frame.skipIf
  split
  · exact lasts.pc _ holds
  · exact holds

theorem takeResults (holds : good frame) (a c : Nat) (results : List Value)
    : good (frame.takeResults a c results) := by
  unfold Frame.takeResults
  split
  · exact lasts.top _ (lasts.writeAll holds a results)
  · exact lasts.writeAll holds a _

theorem spread (holds : good frame) (i : Instruction) : good (Vm.spread frame i) := by
  unfold Vm.spread
  split
  · exact lasts.top _ (lasts.writeAll holds i.a frame.extra)
  · exact lasts.writeAll holds i.a _

end Frame.Lasting

namespace Vm

open Run (Gives)

section

variable {good : Frame → Prop} (lasts : Frame.Lasting good)

include lasts

theorem jump_gives (holds : good frame) (offset : Int) : Gives (jump frame offset) good := by
  unfold jump
  dsimp only
  split
  · exact .fail _
  · exact .pure (lasts.pc _ holds)

omit lasts in
theorem setList_gives (holds : good frame) (i : Instruction) : Gives (setList frame i) good := by
  unfold setList
  split
  · refine .andThen fun t => ?_
    split
    · exact .andThen fun _ => .andThen fun _ => .pure holds
    · exact .andThen fun _ => .pure holds
  · exact .fail _

theorem loopNext_gives (holds : good frame) (i : Instruction) : Gives (loopNext frame i) good := by
  refine .andThen fun step => .andThen fun index => .andThen fun limit => ?_
  have advanced := lasts.write holds i.a (.number (index + step))
  dsimp only
  split <;> split
  · exact jump_gives lasts (lasts.write advanced _ _) _
  · exact .pure advanced
  · exact jump_gives lasts (lasts.write advanced _ _) _
  · exact .pure advanced

/-- Whatever an instruction does that captures nothing, what lasts goes on to hold. -/
theorem execute_gives (invoke : Invoke) (holds : good frame) {op : Opcode} (other : op ≠ .closure)
    (i : Instruction)
    : Gives (execute invoke frame op i) good := by
  have written (value : Value) : Gives (pure (frame.write i.a value) : Vm Frame) good :=
    .pure (lasts.write holds i.a value)
  cases op with
  | move | not => exact written _
  | loadBool => exact .pure (lasts.skipIf (lasts.write holds _ _) _)
  | loadNil => exact .pure (lasts.writeAll holds _ _)
  | loadK | newTable | unm | len | concat => exact .andThen fun _ => written _
  | getUpval | getGlobal | getTable => exact .andThen fun _ => .andThen fun _ => written _
  | setUpval | setGlobal => exact .andThen fun _ => .andThen fun _ => .pure holds
  | setTable => exact .andThen fun _ => .andThen fun _ => .andThen fun _ => .pure holds
  | self => exact .andThen fun _ => .andThen fun _ => .pure (lasts.write (lasts.write holds _ _) _ _)
  | add | sub | mul | div | mod | pow =>
      exact .andThen fun _ => .andThen fun _ => .andThen fun _ => .andThen fun _ => written _
  | jmp => exact jump_gives lasts holds _
  | eq => exact .andThen fun _ => .andThen fun _ => .pure (lasts.skipIf holds _)
  | lt | le => exact .andThen fun _ => .andThen fun _ => .andThen fun _ => .pure (lasts.skipIf holds _)
  | test => exact .pure (lasts.skipIf holds _)
  | testSet =>
      unfold execute
      dsimp only
      split
      · exact written _
      · exact .pure (lasts.skipIf holds _)
  | forLoop => exact loopNext_gives lasts holds i
  | forPrep =>
      exact .andThen fun _ => .andThen fun _ => .andThen fun _ =>
        jump_gives lasts (lasts.write holds _ _) _
  | setList => exact setList_gives holds i
  | closure => exact absurd rfl other
  | vararg => exact .pure (lasts.spread holds i)
  | tForLoop => exact .fail _
  | close | call | tailCall | ret => exact .pure holds

end

end Vm

-----------------------------------------------------------------------------------------
-- Activations that go on
-----------------------------------------------------------------------------------------

/-- An activation goes on with the same closure and in the same environment. -/
structure Frame.Continues (frame after : Frame) : Prop where
  closure : after.closure = frame.closure
  environment : after.environment = frame.environment

namespace Frame.Continues

variable {next : Frame}

theorem refl (frame : Frame) : frame.Continues frame :=
  ⟨rfl, rfl⟩

theorem trans {last : Frame} (first : frame.Continues next) (second : next.Continues last)
    : frame.Continues last :=
  ⟨second.closure.trans first.closure, second.environment.trans first.environment⟩

theorem lasts (frame : Frame) : Frame.Lasting frame.Continues where
  registers _ continues := ⟨continues.closure, continues.environment⟩
  top _ continues := ⟨continues.closure, continues.environment⟩
  pc _ continues := ⟨continues.closure, continues.environment⟩

end Frame.Continues

namespace Vm

open Run (Gives)

theorem capture_gives (frame : Frame) (descriptor : Instruction)
    : Gives (capture frame descriptor) fun made => frame.Continues made.1 := by
  unfold capture
  split
  · split
    · exact .pure (.refl frame)
    · exact .andThen fun _ => .pure ⟨rfl, rfl⟩
  · exact .andThen fun _ => .pure (.refl frame)
  · exact .fail _

/-- By induction over the words that describe what is captured. -/
theorem captures_gives (count : Nat) (frame : Frame)
    : Gives (captures count frame) fun made => frame.Continues made.1 := by
  induction count generalizing frame with
  | zero => exact .pure (.refl frame)
  | succ count ih =>
      unfold captures
      split
      · exact .fail _
      · refine (capture_gives { frame with pc := frame.pc + 1 } _).bind fun first same => ?_
        refine (ih first.1).bind fun others later => .pure ?_
        have both := same.trans later
        exact ⟨both.closure, both.environment⟩

theorem close_gives (frame : Frame) (i : Instruction) : Gives (close frame i) frame.Continues := by
  refine .andThen fun p => ?_
  split
  · exact .fail _
  · refine .andThen fun nested => (captures_gives _ frame).bind fun made same => ?_
    exact .andThen fun ref => .pure ((Frame.Continues.lasts frame).write same i.a _)

/-- Whatever an instruction does its activation goes on. -/
theorem execute_continues (invoke : Invoke) (frame : Frame) (op : Opcode) (i : Instruction)
    : Gives (execute invoke frame op i) frame.Continues := by
  by_cases closes : op = .closure
  · subst closes
    exact close_gives frame i
  · exact execute_gives (Frame.Continues.lasts frame) invoke (.refl frame) closes i

end Vm

-----------------------------------------------------------------------------------------
-- Activations as they are opened
-----------------------------------------------------------------------------------------

/-- The closure that an activation runs has the environment in which it runs. -/
def Machine.Carries (m : Machine) (frame : Frame) : Prop :=
  ∃ c, m.heap.closures.get frame.closure.handle = .ok c ∧ frame.environment = c.environment

theorem Machine.Carries.continues {next : Frame} (carries : m.Carries frame)
    (continues : frame.Continues next)
    : m.Carries next := by
  obtain ⟨c, found, same⟩ := carries
  exact ⟨c, continues.closure ▸ found, continues.environment.trans same⟩

/-- What two operations in a row result in. -/
theorem Run.of_bind_ok {x : Run ε α} {f : α → Run ε β} {b : β} (ran : (x >>= f) m = .ok b after)
    : ∃ a middle, x m = .ok a middle ∧ f a middle = .ok b after := by
  rcases came : x m with ⟨a, middle⟩ | ⟨halt, middle⟩
  · exact ⟨a, middle, rfl, (Run.bind_ok came).symm.trans ran⟩
  · cases (Run.bind_error came).symm.trans ran

theorem Run.of_lift_ok {x : Vm α} {a : α} (ran : (liftM x : Action α) m = .ok a after)
    : x m = .ok a after := by
  change Run.mapError Failure.fault x m = _ at ran
  unfold Run.mapError at ran
  rcases came : x m with ⟨b, last⟩ | ⟨_ | _, last⟩ <;> rw [came] at ran <;> cases ran
  rfl

theorem Run.Looks.ok {x : Run ε α} {a : α} (looks : Looks x) (ran : x m = .ok a after)
    : after = m := by
  rcases looks.outcome m with ⟨_, same⟩ | ⟨_, failed⟩
  · exact (EStateM.Result.ok.inj (ran.symm.trans same)).2
  · cases ran.symm.trans failed

theorem Vm.closure_ok {ref : ClosureRef} {c : Closure} (ran : Vm.closure ref m = .ok c after)
    : m.heap.closures.get ref.handle = .ok c ∧ after = m := by
  refine ⟨?_, (Vm.closure_looks ref).ok ran⟩
  change Vm.found (m.heap.closures.get ref.handle) m = _ at ran
  cases found : m.heap.closures.get ref.handle with
  | ok held =>
      rw [found] at ran
      cases ran
      rfl
  | error miss =>
      rw [found] at ran
      cases ran

/-- An activation is opened in the environment of its closure. -/
theorem Vm.openFrame_carries {ref : ClosureRef} {arguments : List Value} {depth : Nat}
    (ran : openFrame ref arguments depth m = .ok frame after)
    : m.Carries frame := by
  obtain ⟨c, middle, looked, further⟩ := Run.of_bind_ok ran
  obtain ⟨p, last, -, opens⟩ := Run.of_bind_ok further
  cases opens
  exact ⟨c, (closure_ok looked).1, rfl⟩

/-- Results are delivered to the nearest caller that stores them, by induction over those that pass
them on.
-/
theorem unwind_delivers {results : List Value} {resume : Resume} {callers rest : List Layer}
    {top : Layer} (delivered : unwind results resume callers = .inr (top, rest))
    : ∃ above old a c, callers = above ++ old :: rest
        ∧ top = { old with frame := old.frame.takeResults a c results } := by
  induction callers generalizing resume with
  | nil => cases resume <;> cases delivered
  | cons caller others ih =>
      cases resume with
      | store a c =>
          cases delivered
          exact ⟨[], caller, a, c, rfl, rfl⟩
      | forward =>
          obtain ⟨above, old, a, c, rfl, same⟩ := ih delivered
          exact ⟨caller :: above, old, a, c, rfl, same⟩

/-- Every activation to which results are delivered, and every one below it, goes on. -/
theorem unwind_continues {results : List Value} {resume : Resume} {callers rest : List Layer}
    {top : Layer} (delivered : unwind results resume callers = .inr (top, rest))
    : ∀ layer ∈ top :: rest, ∃ old ∈ callers, old.frame.Continues layer.frame := by
  obtain ⟨above, old, a, c, rfl, rfl⟩ := unwind_delivers delivered
  intro layer member
  rcases List.mem_cons.mp member with rfl | member
  · exact ⟨old, List.mem_append_right _ (List.mem_cons_self ..),
      (Frame.Continues.lasts _).takeResults (.refl _) a c results⟩
  · exact ⟨layer, List.mem_append_right _ (List.mem_cons_of_mem _ member), .refl _⟩

namespace Plan

variable {invoke : Invoke} {top next : Layer} {callers rest : List Layer}

/-- A call that goes on opens an activation, or delivers the results of what is no closure. -/
theorem invokes_ok {resume : Resume}
    (ran : (invokes frame i resume callers).run invoke m = .ok (.inr (next, rest)) after)
    : (∃ ref callee, Vm.resolve (frame.read i.a) m = .ok (.closure ref) m
          ∧ Vm.openFrame ref (frame.span (i.a + 1) i.b) (frame.depth + 1) m = .ok callee after
          ∧ next = ⟨callee, resume⟩ ∧ rest = callers)
      ∨ ∃ results, unwind results resume callers = .inr (next, rest) := by
  unfold invokes at ran
  rw [run_bind, run_lift] at ran
  obtain ⟨_, within, passed, resolving⟩ := Run.of_bind_ok ran
  obtain rfl := (Vm.checkDepth_looks _).ok passed
  rw [run_bind, run_lift] at resolving
  obtain ⟨target, now, resolved, calling⟩ := Run.of_bind_ok resolving
  obtain rfl := (Vm.resolve_looks _).ok resolved
  cases target with
  | closure ref =>
      dsimp only at calling
      rw [run_bind, run_lift] at calling
      obtain ⟨callee, last, opened, ends⟩ := Run.of_bind_ok calling
      cases ends
      exact .inl ⟨ref, callee, resolved, opened, rfl, rfl⟩
  | _ =>
      dsimp only at calling
      rw [run_bind] at calling
      obtain ⟨results, last, -, ends⟩ := Run.of_bind_ok calling
      exact .inr ⟨results, (EStateM.Result.ok.inj ends).1⟩

/-- A call that opens an activation opens the closure that it comes down to. -/
theorem start_ok {call : Invocation} (ran : (start call).run invoke m = .ok (.inr frame) after)
    : ∃ ref, Vm.resolve call.f m = .ok (.closure ref) m
        ∧ Vm.openFrame ref call.arguments call.depth m = .ok frame after := by
  unfold start at ran
  rw [run_bind, run_lift] at ran
  obtain ⟨_, within, passed, resolving⟩ := Run.of_bind_ok ran
  obtain rfl := (Vm.checkDepth_looks _).ok passed
  rw [run_bind, run_lift] at resolving
  obtain ⟨target, now, resolved, calling⟩ := Run.of_bind_ok resolving
  obtain rfl := (Vm.resolve_looks _).ok resolved
  cases target with
  | closure ref =>
      dsimp only at calling
      rw [run_bind, run_lift] at calling
      obtain ⟨callee, last, opened, ends⟩ := Run.of_bind_ok calling
      cases ends
      exact ⟨ref, resolved, opened⟩
  | _ =>
      dsimp only at calling
      rw [run_bind] at calling
      obtain ⟨results, last, -, ends⟩ := Run.of_bind_ok calling
      cases ends

/-- What a call leaves of the stack goes on or has been opened. -/
theorem invokes_carries {resume : Resume}
    (ran : (invokes frame i resume callers).run invoke m = .ok (.inr (next, rest)) after)
    : ∀ layer ∈ next :: rest,
        (∃ old ∈ callers, old.frame.Continues layer.frame) ∨ m.Carries layer.frame := by
  rcases invokes_ok ran with ⟨ref, callee, -, opened, rfl, rfl⟩ | ⟨results, delivered⟩
  · intro layer member
    rcases List.mem_cons.mp member with rfl | member
    · exact .inr (Vm.openFrame_carries opened)
    · exact .inl ⟨layer, member, .refl _⟩
  · exact fun layer member => .inl (unwind_continues delivered layer member)

/-- A call opens the closure that it comes down to. -/
theorem start_carries {call : Invocation}
    (ran : (start call).run invoke m = .ok (.inr frame) after)
    : m.Carries frame := by
  obtain ⟨ref, -, opened⟩ := start_ok ran
  exact Vm.openFrame_carries opened

/-- What an instruction leaves of the stack goes on or has been opened. -/
theorem advance_carries
    (ran : (advance top callers i).run invoke m = .ok (.inr (next, rest)) after)
    : ∀ layer ∈ next :: rest,
        (∃ old ∈ top :: callers, old.frame.Continues layer.frame) ∨ m.Carries layer.frame := by
  have as := advance_as top callers i
  generalize advance top callers i = plan at as ran
  cases as with
  | calls resume calls =>
      intro layer member
      refine (invokes_carries ran layer member).imp_left fun ⟨old, listed, continues⟩ => ?_
      rcases List.mem_cons.mp listed with rfl | listed
      · exact ⟨top, List.mem_cons_self .., continues.closure, continues.environment⟩
      · exact ⟨old, List.mem_cons_of_mem _ listed, continues⟩
  | executes op operation =>
      rw [run_bind, run_execute] at ran
      obtain ⟨now, last, executed, ends⟩ := Run.of_bind_ok ran
      have continues := (Vm.execute_continues ..).result executed
      cases ends
      intro layer member
      rcases List.mem_cons.mp member with rfl | member
      · exact .inl ⟨top, List.mem_cons_self .., continues.closure, continues.environment⟩
      · exact .inl ⟨layer, List.mem_cons_of_mem _ member, .refl _⟩
  | returns results =>
      have delivered := (EStateM.Result.ok.inj ran).1
      intro layer member
      obtain ⟨old, listed, continues⟩ := unwind_continues delivered layer member
      exact .inl ⟨old, List.mem_cons_of_mem _ listed, continues⟩
  | fails fault => cases ran

end Plan

-----------------------------------------------------------------------------------------
-- Activations at the points of a run
-----------------------------------------------------------------------------------------

/-- An activation was opened at one of some points. -/
def Begun (before : List Point) (frame : Frame) : Prop :=
  ∃ point ∈ before, point.machine.Carries frame

/-- Every activation that executes at one of some points was opened at a point before it. -/
def Activates (before : List Point) : List Point → Prop
  | [] => True
  | point :: rest =>
      (∀ frame i, point.mark = .executes frame i → Begun before frame)
        ∧ Activates (before ++ [point]) rest

theorem Begun.mono {before more : List Point} (begun : Begun before frame) (within : before ⊆ more)
    : Begun more frame := by
  obtain ⟨point, member, carries⟩ := begun
  exact ⟨point, within member, carries⟩

namespace Activates

variable {before more points : List Point}

theorem mono (activates : Activates before points) (within : before ⊆ more)
    : Activates more points := by
  induction points generalizing before more with
  | nil => trivial
  | cons point rest ih =>
      refine ⟨fun frame i executes => (activates.1 frame i executes).mono within, ?_⟩
      refine ih activates.2 (List.append_subset.mpr ⟨?_, List.subset_append_right ..⟩)
      exact fun other member => List.mem_append_left _ (within member)

theorem append (first : Activates before points) (rest : Activates (before ++ points) more)
    : Activates before (points ++ more) := by
  induction points generalizing before with
  | nil => rwa [List.append_nil] at rest
  | cons point others ih =>
      refine ⟨first.1, ih first.2 ?_⟩
      rwa [List.append_assoc]

theorem left (activates : Activates before (points ++ more)) : Activates before points := by
  induction points generalizing before with
  | nil => trivial
  | cons point rest ih => exact ⟨activates.1, ih activates.2⟩

/-- Points of their own come with their own activations. -/
theorem andThen (first : Activates [] points) (rest : Activates [] more)
    : Activates [] (points ++ more) :=
  first.append (rest.mono (List.nil_subset _))

theorem cons {point : Point} (other : ∀ frame i, point.mark ≠ .executes frame i)
    (rest : Activates [] points)
    : Activates [] (point :: points) :=
  ⟨fun frame i executes => absurd executes (other frame i), rest.mono (List.nil_subset _)⟩

/-- An activation that executes was opened before. -/
theorem begun {here : Point} {later : List Point} (activates : Activates before (points ++ here :: later))
    (executes : here.mark = .executes frame i)
    : Begun (before ++ points) frame := by
  induction points generalizing before with
  | nil =>
      rw [List.append_nil]
      exact activates.1 frame i executes
  | cons point rest ih =>
      have begun := ih activates.2
      rwa [List.append_assoc] at begun

theorem of_failures (outcome : EStateM.Result (Halt Fault) Machine α)
    : Activates [] (failures outcome) := by
  unfold failures
  split
  · exact ⟨nofun, trivial⟩
  · trivial

section

variable {invoke : Invoke} {record : Invocation → Machine → List Point}
  (calls : ∀ call now, Activates [] (record call now))

include calls

/-- By induction over the calls and requests of a course. -/
theorem of_course {requested : Request → Machine → List Point}
    (requests : ∀ request now, Activates [] (requested request now)) (course : Course α)
    : Activates [] (course.trace invoke record requested) := by
  induction course with
  | ends outcome => trivial
  | calls call now next ih =>
      refine (calls call now).andThen ?_
      cases Run.attempt (call.run invoke) now with
      | ok results after => exact ih results after
      | error halt after => trivial
  | asks request now next ih =>
      refine (requests request now).andThen ?_
      cases Course.answer invoke request now with
      | ok reply after => exact ih reply after
      | error halt after => trivial

/-- By induction over the entries of an errand. -/
theorem of_errand (errand : Errand α) : Activates [] (errand.trace invoke record) := by
  induction errand with
  | ends outcome => trivial
  | enters body now next ih =>
      have unasked (_ : Request) (_ : Machine) : Activates [] [] := trivial
      have inside : Activates [] ((body now.enter).trace invoke record fun _ _ => []) :=
        of_course calls unasked _
      refine ((cons (by nofun) inside).andThen (of_failures _)).andThen (cons (by nofun) ?_)
      cases Run.attempt (Vm.enter (body.run invoke)) now with
      | ok results after => exact ih results after
      | error halt after => trivial

theorem of_request (request : Request) (now : Machine)
    : Activates [] (request.trace invoke record now) := by
  have asked : Activates []
      (⟨.asks request, now⟩ :: (request.errand now).trace invoke record) :=
    cons nofun (of_errand calls _)
  refine asked.andThen ?_
  cases Course.answer invoke request now with
  | ok reply after => exact ⟨fun _ _ executes => (nomatch executes), trivial⟩
  | error halt after => trivial

/-- What is on a stack was opened before, by induction over the fuel. -/
theorem of_stack (fuel : Nat) {top : Layer} {callers : List Layer}
    (opened : ∀ layer ∈ top :: callers, Begun before layer.frame) (m : Machine)
    : Activates before (stackTrace invoke record fuel top callers m) := by
  induction fuel generalizing before top callers m with
  | zero => trivial
  | succ fuel ih =>
      unfold stackTrace
      rcases Vm.fetch top.frame m with ⟨i, charged⟩ | ⟨halt, failed⟩
      case error => trivial
      have requests (request : Request) (now : Machine)
          : Activates [] (request.trace invoke record now) :=
        of_request calls request now
      have inside : Activates [] ((Plan.advance top callers i charged).trace invoke record _) :=
        of_course calls requests _
      have first : Activates before (⟨.executes top.frame i, charged⟩
          :: (Plan.advance top callers i charged).trace invoke record
            (Request.trace invoke record)) := by
        refine ⟨fun frame i executes => ?_, inside.mono (List.nil_subset _)⟩
        cases executes
        exact opened top (List.mem_cons_self ..)
      refine first.append ?_
      rcases ran : (Plan.advance top callers i).run invoke charged with
        ⟨results | ⟨next, rest⟩, after⟩ | ⟨halt, after⟩
      · trivial
      · refine ih (fun layer member => ?_) after
        rcases Plan.advance_carries ran layer member with ⟨old, listed, continues⟩ | carries
        · obtain ⟨point, known, carries⟩ := opened old listed
          exact ⟨point, List.mem_append_left _ known, carries.continues continues⟩
        · exact ⟨_, List.mem_append_right _ (List.mem_cons_self ..), carries⟩
      · trivial

end

/-- Every activation of a call was opened in it, by induction over the fuel. -/
theorem of_call (fuel : Nat) (call : Invocation) (m : Machine)
    : Activates [] (callTrace fuel call m) := by
  induction fuel generalizing call m with
  | zero => trivial
  | succ fuel ih =>
      unfold callTrace
      refine andThen ?_ (of_failures _)
      have requests (request : Request) (now : Machine)
          : Activates [] (request.trace (Vm.call fuel) (callTrace fuel) now) :=
        of_request ih request now
      have inside : Activates [] ((Plan.start call m).trace (Vm.call fuel) (callTrace fuel) _) :=
        of_course ih requests _
      have first : Activates [] (⟨.called call, m⟩
          :: (Plan.start call m).trace (Vm.call fuel) (callTrace fuel)
            (Request.trace (Vm.call fuel) (callTrace fuel))) :=
        cons (fun _ _ => Mark.noConfusion) inside
      refine first.append ?_
      rcases ran : (Plan.start call).run (Vm.call fuel) m with
        ⟨results | frame, after⟩ | ⟨halt, after⟩
      · trivial
      · refine of_stack ih fuel (fun layer member => ?_) after
        cases List.mem_singleton.mp member
        exact ⟨_, List.mem_cons_self .., Plan.start_carries ran⟩
      · trivial

/-- Every activation of a session of the host was opened in it. -/
theorem of_session (fuel : Nat) (session : HostProgram) (m : Machine)
    : Activates [] (session.trace fuel m) :=
  of_course (of_call fuel) (of_request (of_call fuel)) _

end Activates

-----------------------------------------------------------------------------------------
-- Closures and their environments
-----------------------------------------------------------------------------------------

theorem Vm.newClosure_ok {c : Closure} {ref : ClosureRef} (ran : newClosure c m = .ok ref after)
    : after.heap.closures.get ref.handle = .ok c := by
  cases ran
  exact Arena.get_insert_self ..

/-- A closure that an activation makes has the environment of the activation. -/
theorem Vm.close_makes {next : Frame} (ran : close frame i m = .ok next after)
    : ∃ ref c, next.read i.a = .closure ref ∧ after.heap.closures.get ref.handle = .ok c
        ∧ c.environment = frame.environment := by
  obtain ⟨p, _, -, nesting⟩ := Run.of_bind_ok ran
  cases listed : p.nested[i.bx]? with
  | none =>
      rw [listed] at nesting
      cases nesting
  | some nested =>
      rw [listed] at nesting
      obtain ⟨q, _, -, capturing⟩ := Run.of_bind_ok nesting
      obtain ⟨made, _, captured, closing⟩ := Run.of_bind_ok capturing
      obtain ⟨ref, _, closed, ends⟩ := Run.of_bind_ok closing
      cases ends
      refine ⟨ref, _, ?_, newClosure_ok closed, ((captures_gives ..).result captured).environment⟩
      exact (Frame.read_write ..).trans (if_pos rfl)

/-- A closure over a prototype has the environment that it is given. -/
theorem Vm.instantiate_makes {prototype : PrototypeRef} {e : TableRef} {ref : ClosureRef}
    (ran : instantiate prototype (some e) m = .ok ref after)
    : ∃ c, after.heap.closures.get ref.handle = .ok c ∧ c.environment = e := by
  obtain ⟨p, _, -, cells⟩ := Run.of_bind_ok ran
  obtain ⟨upvalues, _, -, looking⟩ := Run.of_bind_ok cells
  obtain ⟨now, _, -, making⟩ := Run.of_bind_ok looking
  exact ⟨_, newClosure_ok making, rfl⟩

/-- A closure that survives a collection is the one that was there, its mark aside. -/
theorem Heap.closure_of_collect {heap : Heap} {around : Surroundings} {roots : List Value}
    {handle : Handle} {now : Closure}
    (found : (heap.collect around roots).2.closures.get handle = .ok now)
    : ∃ before, heap.closures.get handle = .ok before ∧ now = before.mark false := by
  have wiped := congrArg closures (clearMarks_markAll around heap (heap.anchors roots))
  have kept := ((Arena.get_map_retain wiped).mp found).1
  change (heap.closures.map _).get handle = _ at kept
  rw [Arena.get_map] at kept
  rcases held : heap.closures.get handle with miss | before <;> rw [held] at kept
  · cases kept
  · cases kept
    exact ⟨before, rfl, rfl⟩

/-- A closure that is there at the next point has the environment that it had. -/
theorem Point.Moves.environment {point : Point} {ref : ClosureRef} {c now : Closure}
    (moves : point.Moves m) (found : point.machine.heap.closures.get ref.handle = .ok c)
    (held : m.heap.closures.get ref.handle = .ok now)
    : now.environment = c.environment := by
  rcases moves with ⟨⟨outset, set, leads⟩, -⟩ | ⟨-, rfl⟩
  · have begins : outset.heap.closures.get ref.handle = .ok c := by cases set <;> exact found
    obtain ⟨also, kept, same⟩ := leads.homes ref c begins
    cases held.symm.trans kept
    exact same
  · unfold Machine.collect at held
    split at held
    · cases held.symm.trans found
      rfl
    · obtain ⟨before, known, rfl⟩ := Heap.closure_of_collect held
      cases known.symm.trans found
      rfl

/-- Every closure that was there at a point of a log, and at all points since, has the environment
that it had.
-/
def Machine.Retains (log : List Point) (m : Machine) : Prop :=
  ∀ earlier first later, log = earlier ++ first :: later → ∀ (ref : ClosureRef) c now,
    (∀ between ∈ later, between.machine.heap.isLive (.closure ref) = true)
    → first.machine.heap.closures.get ref.handle = .ok c
    → m.heap.closures.get ref.handle = .ok now → now.environment = c.environment

/-- A closure that was there at the last point had the environment that it had before. -/
theorem Machine.Retains.step {log : List Point} {point : Point}
    (retains : point.machine.Retains log) (moves : point.Moves m)
    : m.Retains (log ++ [point]) := by
  intro earlier first later split ref c now there found held
  rcases List.eq_nil_or_concat later with rfl | ⟨others, last, rfl⟩
  · obtain ⟨-, rfl⟩ := List.append_singleton_inj.mp split
    exact moves.environment found held
  · rw [List.concat_eq_append, ← List.cons_append, ← List.append_assoc] at split
    obtain ⟨known, rfl⟩ := List.append_singleton_inj.mp split
    simp only [List.concat_eq_append, List.mem_append, List.mem_singleton] at there
    obtain ⟨between, kept⟩ := Arena.contains_iff.mp (there point (.inr rfl))
    have before := retains earlier first others known ref c between
      (fun other member => there other (.inl member)) found kept
    exact (moves.environment kept held).trans before

end HookMachine
