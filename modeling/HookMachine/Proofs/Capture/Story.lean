import HookMachine.Proofs.Capture.Capturing
import HookMachine.Proofs.Capture.Depths
import HookMachine.Proofs.Deeds.Interleaving

/-!
Activations followed by their depths. At every point of a run the activation that executes is the one
that a lineage knows to run at its depth, and it has the cells that it was opened with and those that it
has captured since.
-/

namespace HookMachine

variable {α : Type} {m last : Machine} {frame next : Frame} {point : Point} {d floor : Nat}

/-- The cells that an activation has: of the registers that it captured, and of its closure. -/
structure Holdings where
  captured : List (Nat × CellRef)
  upvalues : Array CellRef

def Frame.holdings (frame : Frame) : Holdings :=
  ⟨frame.captured, frame.upvalues⟩

/-- A lineage, and the cells that activations have by entry and depth. -/
structure Story extends Lineage where
  held : Nat × Nat → Holdings := fun _ => ⟨[], #[]⟩

namespace Story

variable {s later : Story} {points more : List Point} {key : Nat × Nat}

/-- The story after a point. -/
def after (s : Story) (point : Point) : Story where
  toLineage := s.toLineage.after point
  held :=
    match point.opens?, point.mark with
    | some (ref, depth), _ =>
        Function.update s.held (s.level, depth) ⟨[], (point.machine.upvalues? ref).getD #[]⟩
    | none, .executes frame i =>
        if i.operation? = some .closure then
          match Vm.close { frame with pc := frame.pc + 1 } i point.machine with
          | .ok next _ => Function.update s.held (s.level, frame.depth) next.holdings
          | .error .. => s.held
        else
          s.held
    | none, _ => s.held

/-- The story after some points. -/
def through (s : Story) (points : List Point) : Story :=
  points.foldl after s

@[simp]
theorem through_append (s : Story) (points more : List Point)
    : s.through (points ++ more) = (s.through points).through more :=
  List.foldl_append

theorem toLineage_through (points : List Point) (s : Story)
    : (s.through points).toLineage = points.foldl Lineage.after s.toLineage := by
  induction points generalizing s with
  | nil => rfl
  | cons point rest ih => exact ih (s.after point)

/-- What is known of an activation by its entry and depth has not changed. -/
structure Agrees (s later : Story) (key : Nat × Nat) : Prop where
  running : later.running key = s.running key
  held : later.held key = s.held key

theorem Agrees.refl (s : Story) (key : Nat × Nat) : s.Agrees s key :=
  ⟨rfl, rfl⟩

theorem Agrees.trans {middle : Story} (first : s.Agrees middle key) (rest : middle.Agrees later key)
    : s.Agrees later key :=
  ⟨rest.running.trans first.running, rest.held.trans first.held⟩

/-- A point changes nothing but what is known of the activation that it opens or that executes. -/
theorem agrees_after (s : Story)
    (unopened : ∀ ref depth, point.opens? = some (ref, depth) → key ≠ (s.level, depth))
    (unexecuted : ∀ frame i, point.mark = .executes frame i → i.operation? = some .closure
      → key ≠ (s.level, frame.depth))
    : s.Agrees (s.after point) key := by
  unfold after Lineage.after
  rcases opens : point.opens? with _ | ⟨ref, depth⟩
  · refine ⟨rfl, ?_⟩
    dsimp only
    cases executes : point.mark with
    | executes frame i =>
        dsimp only
        split
        · rename_i closes
          cases Vm.close { frame with pc := frame.pc + 1 } i point.machine with
          | ok => exact Function.update_of_ne (unexecuted frame i executes closes) ..
          | error => rfl
        · rfl
    | _ => rfl
  · have apart := unopened ref depth opens
    exact ⟨Function.update_of_ne apart .., Function.update_of_ne apart ..⟩

/-- A story knows an activation. -/
structure Knows (s : Story) (frame : Frame) : Prop where
  running : (s.executing frame).isSome
  held : s.held (s.level, frame.depth) = frame.holdings

theorem Knows.goes (knows : s.Knows frame) (level : later.level = s.level)
    (agrees : s.Agrees later (s.level, frame.depth)) (depth : next.depth = frame.depth)
    (holdings : next.holdings = frame.holdings)
    : later.Knows next := by
  constructor
  · unfold Lineage.executing
    rw [level, depth, agrees.running]
    exact knows.running
  · rw [level, depth, agrees.held, holdings]
    exact knows.held

/-- Every activation that executes at one of some points is known there. -/
def Recounts (s : Story) : List Point → Prop
  | [] => True
  | point :: rest =>
      (∀ frame i, point.mark = .executes frame i → s.Knows frame) ∧ (s.after point).Recounts rest

theorem recounts_append
    : s.Recounts (points ++ more) ↔ s.Recounts points ∧ (s.through points).Recounts more := by
  induction points generalizing s with
  | nil => simp [Recounts, through]
  | cons point rest ih =>
      rw [List.cons_append, Recounts, Recounts, ih, and_assoc]
      rfl

/-- Points that lie within an activation less deep than a floor: they are about activations no less deep
and about further entries alone, which all end.
-/
structure Nests (s : Story) (floor : Nat) (points : List Point) : Prop where
  recounts : s.Recounts points
  level : (s.through points).level = s.level
  spares (key : Nat × Nat)
    : key.1 < s.level ∨ key.1 = s.level ∧ key.2 < floor → s.Agrees (s.through points) key

namespace Nests

theorem nil (s : Story) (floor : Nat) : s.Nests floor [] :=
  ⟨trivial, rfl, fun key _ => .refl s key⟩

theorem append (first : s.Nests floor points) (rest : (s.through points).Nests floor more)
    : s.Nests floor (points ++ more) where
  recounts := recounts_append.mpr ⟨first.recounts, rest.recounts⟩
  level := by rw [through_append, rest.level, first.level]
  spares key less := by
    rw [through_append]
    exact (first.spares key less).trans (rest.spares key (first.level ▸ less))

theorem mono (nests : s.Nests d points) (lower : floor ≤ d) : s.Nests floor points where
  recounts := nests.recounts
  level := nests.level
  spares key less := nests.spares key (less.imp_right fun less => ⟨less.1, Nat.lt_of_lt_of_le less.2 lower⟩)

/-- Points go on from one that is no end or beginning of an entry. -/
theorem cons (knows : ∀ frame i, point.mark = .executes frame i → s.Knows frame)
    (level : (s.after point).level = s.level)
    (spares : ∀ key, key.1 < s.level ∨ key.1 = s.level ∧ key.2 < floor → s.Agrees (s.after point) key)
    (rest : (s.after point).Nests floor points)
    : s.Nests floor (point :: points) := by
  have first : s.Nests floor [point] := ⟨⟨knows, trivial⟩, level, spares⟩
  exact first.append rest

end Nests

-----------------------------------------------------------------------------------------
-- Courses, errands and requests
-----------------------------------------------------------------------------------------

namespace Nests

/-- A point at which nothing is opened, executed, entered or left. -/
theorem still (unopened : point.opens? = none) (level : (s.after point).level = s.level)
    (unexecuted : ∀ frame i, point.mark ≠ .executes frame i)
    : s.Nests floor [point] := by
  refine ⟨⟨fun frame i executes => absurd executes (unexecuted frame i), trivial⟩, level, ?_⟩
  refine fun key _ => agrees_after s ?_ fun frame i executes => absurd executes (unexecuted frame i)
  rw [unopened]
  nofun

theorem of_failures (outcome : EStateM.Result (Halt Fault) Machine α)
    : s.Nests floor (failures outcome) := by
  unfold failures
  split
  · exact still rfl rfl fun _ _ => Mark.noConfusion
  · exact .nil s floor

/-- What is done within an entry is about activations of that entry. -/
theorem entry {now : Machine} (inside : ∀ s : Story, s.Nests 0 points)
    : s.Nests floor (⟨.entered, now⟩ :: points ++ [⟨.left, last⟩]) := by
  have entered (key : Nat × Nat) : s.Agrees (s.after ⟨.entered, now⟩) key :=
    agrees_after s nofun fun _ _ => Mark.noConfusion
  have within := inside (s.after ⟨.entered, now⟩)
  have left (key : Nat × Nat)
      : ((s.after ⟨.entered, now⟩).through points).Agrees
          (((s.after ⟨.entered, now⟩).through points).after ⟨.left, last⟩) key :=
    agrees_after _ nofun fun _ _ => Mark.noConfusion
  constructor
  case recounts =>
    refine recounts_append.mpr ⟨⟨fun _ _ => Mark.noConfusion, within.recounts⟩, ?_, trivial⟩
    exact fun _ _ => Mark.noConfusion
  case level =>
    rw [through_append]
    exact congrArg (· - 1) within.level
  case spares =>
    intro key less
    rw [through_append]
    have outer : key.1 < s.level + 1 := by omega
    exact ((entered key).trans (within.spares key (.inl outer))).trans (left key)

section

variable {invoke : Invoke} {record : Invocation → Machine → List Point}
  (calls : ∀ (s : Story) call now, s.Nests call.depth (record call now))

include calls

/-- By induction over the calls and requests of a course. -/
theorem of_course {requested : Request → Machine → List Point}
    (requests : ∀ (s : Story) request now, s.Nests floor (requested request now)) {course : Course α}
    (deep : course.Deep floor)
    : s.Nests floor (course.trace invoke record requested) := by
  induction course generalizing s with
  | ends outcome => exact .nil s floor
  | calls call now next ih =>
      refine ((calls s call now).mono deep.1).append ?_
      cases Run.attempt (call.run invoke) now with
      | ok results after => exact ih results after (deep.2 ..)
      | error halt after => exact .nil _ floor
  | asks request now next ih =>
      refine (requests s request now).append ?_
      cases Course.answer invoke request now with
      | ok reply after => exact ih reply after (deep ..)
      | error halt after => exact .nil _ floor

/-- By induction over the entries of an errand. -/
theorem of_errand (errand : Errand α) : s.Nests floor (errand.trace invoke record) := by
  induction errand generalizing s with
  | ends outcome => exact .nil s floor
  | enters body now next ih =>
      have inside (s : Story)
          : s.Nests 0 ((body now.enter).trace invoke record (fun _ _ => [])
              ++ failures (body.run invoke now.enter)) :=
        (of_course calls (fun s _ _ => .nil s 0) (Course.deep_zero _)).append (.of_failures _)
      have entered : s.Nests floor (⟨.entered, now.enter⟩ :: _
          ++ [⟨.left, (Vm.enter (body.run invoke) now).last⟩]) :=
        entry inside
      unfold Errand.trace
      rw [List.cons_append, List.append_cons]
      refine entered.append ?_
      cases Run.attempt (Vm.enter (body.run invoke)) now with
      | ok results after => exact ih results after
      | error halt after => exact .nil _ floor

theorem of_request (request : Request) (now : Machine)
    : s.Nests floor (request.trace invoke record now) := by
  unfold Request.trace
  have asked : s.Nests floor [⟨.asks request, now⟩] := still rfl rfl fun _ _ => Mark.noConfusion
  refine (asked.append (of_errand calls _)).append ?_
  cases Course.answer invoke request now with
  | ok reply after => exact still rfl rfl fun _ _ => Mark.noConfusion
  | error halt after => exact .nil _ floor

end

end Nests

-----------------------------------------------------------------------------------------
-- Stacks
-----------------------------------------------------------------------------------------

/-- The activations of a stack are known, and each is deeper than those below it. -/
structure Stands (s : Story) (floor : Nat) (layers : List Layer) : Prop where
  knows : ∀ layer ∈ layers, s.Knows layer.frame
  above : ∀ layer ∈ layers, floor ≤ layer.frame.depth
  descends : layers.Pairwise fun upper lower => lower.frame.depth < upper.frame.depth

namespace Stands

variable {layers callers : List Layer} {top : Layer}

theorem single (knows : s.Knows top.frame) (above : floor ≤ top.frame.depth)
    : s.Stands floor [top] where
  knows _ member := List.mem_singleton.mp member ▸ knows
  above _ member := List.mem_singleton.mp member ▸ above
  descends := List.pairwise_singleton ..

theorem tail (stands : s.Stands floor (top :: callers)) : s.Stands floor callers where
  knows layer member := stands.knows layer (List.mem_cons_of_mem _ member)
  above layer member := stands.above layer (List.mem_cons_of_mem _ member)
  descends := (List.pairwise_cons.mp stands.descends).2

/-- A stack is known as long as nothing changes that is known of its activations. -/
theorem goes (stands : s.Stands floor layers) (level : later.level = s.level)
    (agrees : ∀ layer ∈ layers, s.Agrees later (s.level, layer.frame.depth))
    : later.Stands floor layers where
  knows layer member := (stands.knows layer member).goes level (agrees layer member) rfl rfl
  above := stands.above
  descends := stands.descends

/-- An activation may go on top that is deeper than those that are known. -/
theorem push (stands : s.Stands floor layers) (knows : s.Knows top.frame)
    (above : floor ≤ top.frame.depth) (deeper : ∀ layer ∈ layers, layer.frame.depth < top.frame.depth)
    : s.Stands floor (top :: layers) where
  knows := List.forall_mem_cons.mpr ⟨knows, stands.knows⟩
  above := List.forall_mem_cons.mpr ⟨above, stands.above⟩
  descends := List.pairwise_cons.mpr ⟨deeper, stands.descends⟩

/-- The activation on top may go on. -/
theorem replace {other : Layer} (stands : s.Stands floor (top :: callers))
    (knows : s.Knows other.frame) (depth : other.frame.depth = top.frame.depth)
    : s.Stands floor (other :: callers) :=
  stands.tail.push knows (depth ▸ stands.above top (List.mem_cons_self ..)) fun layer member =>
    depth ▸ (List.pairwise_cons.mp stands.descends).1 layer member

/-- What lasts of an activation whatever it writes. -/
theorem lasts (frame : Frame)
    : Frame.Lasting fun next => next.depth = frame.depth ∧ next.holdings = frame.holdings :=
  ⟨fun _ => id, fun _ => id, fun _ => id⟩

/-- Results are delivered to a part of the stack. -/
theorem delivers (stands : s.Stands floor callers) {results : List Value} {resume : Resume}
    {rest : List Layer} (delivered : unwind results resume callers = .inr (top, rest))
    : s.Stands floor (top :: rest) := by
  obtain ⟨above, old, a, c, rfl, rfl⟩ := unwind_delivers delivered
  have below : s.Stands floor (old :: rest) :=
    ⟨fun layer member => stands.knows layer (List.mem_append_right _ member),
      fun layer member => stands.above layer (List.mem_append_right _ member),
      (List.pairwise_append.mp stands.descends).2.1⟩
  have same := (lasts old.frame).takeResults ⟨rfl, rfl⟩ a c results
  have knows := below.knows old (List.mem_cons_self ..)
  exact below.replace (knows.goes rfl (.refl s _) same.1 same.2) same.1

end Stands

/-- An activation is known from where it is opened. -/
theorem knows_opened {ref : ClosureRef} {arguments : List Value}
    (opens : point.opens? = some (ref, d))
    (opened : Vm.openFrame ref arguments d point.machine = .ok frame last)
    (level : (s.after point).level = s.level)
    : (s.after point).Knows frame ∧ frame.depth = d := by
  obtain ⟨c, now, looked, further⟩ := Run.of_bind_ok opened
  obtain ⟨p, _, -, ends⟩ := Run.of_bind_ok further
  cases ends
  have there := Machine.upvalues?_of_get (Vm.closure_ok looked).1
  refine ⟨⟨?_, ?_⟩, rfl⟩
  · unfold Lineage.executing
    rw [level]
    unfold after Lineage.after
    rw [opens]
    simp
  · rw [level]
    unfold after
    rw [opens]
    dsimp only
    rw [Function.update_self, there]
    rfl

/-- An activation that makes a closure is known with what it captures. -/
theorem knows_closed {i : Instruction} (knows : s.Knows frame)
    (closes : i.operation? = some .closure)
    (made : Vm.close { frame with pc := frame.pc + 1 } i m = .ok next last)
    : (s.after ⟨.executes frame i, m⟩).Knows next ∧ next.depth = frame.depth := by
  have depth : next.depth = frame.depth := by
    have as := Vm.close_as { frame with pc := frame.pc + 1 } i m
    rw [made] at as
    cases as with
    | closes described takes =>
        have lasts : Frame.Lasting fun next => next.depth = frame.depth :=
          ⟨fun _ => id, fun _ => id, fun _ => id⟩
        exact lasts.write (by rw [takes.same]) _ _
  have unopened : Point.opens? ⟨.executes frame i, m⟩ = none := by
    unfold Point.opens?
    dsimp only
    rw [closes]
    rfl
  refine ⟨⟨?_, ?_⟩, depth⟩
  · have running := knows.running
    unfold Lineage.executing at running ⊢
    unfold after Lineage.after
    rw [unopened, depth]
    exact running
  · unfold after
    rw [unopened]
    dsimp only
    rw [if_pos closes, made, depth]
    exact Function.update_self ..

/-- An instruction opens an activation only if it calls, and one that is deeper. -/
theorem opens_executes {i : Instruction} {ref : ClosureRef}
    (opens : Point.opens? ⟨.executes frame i, m⟩ = some (ref, d))
    : d = frame.depth + 1 ∧ (i.operation? = some .call ∨ i.operation? = some .tailCall) := by
  unfold Point.opens? at opens
  dsimp only at opens
  split at opens
  · rename_i called
    obtain ⟨_, -, same⟩ := Option.map_eq_some_iff.mp opens
    cases same
    exact ⟨rfl, called⟩
  · cases opens

/-- An instruction changes nothing of what is known of activations less deep than its own, and nothing
of its own unless it captures.
-/
theorem agrees_executes {i : Instruction}
    (less : d < frame.depth ∨ d = frame.depth ∧ i.operation? ≠ some .closure)
    : s.Agrees (s.after ⟨.executes frame i, m⟩) (s.level, d) := by
  refine agrees_after s (fun ref depth opens same => ?_) fun other j executes closes same => ?_
  · obtain ⟨rfl, -⟩ := opens_executes opens
    cases same
    omega
  · cases executes
    cases same
    rcases less with less | ⟨-, unclosed⟩
    · exact Nat.lt_irrefl _ less
    · exact unclosed closes

/-- What an instruction leaves of a stack is known where it goes on. -/
theorem Stands.advance {i : Instruction} {invoke : Invoke} {top below : Layer}
    {callers rest : List Layer} (stands : s.Stands floor (top :: callers))
    (nested : ∀ d, (Plan.advance top callers i).Deep d
      → (s.after ⟨.executes top.frame i, m⟩).Nests d points)
    (ran : (Plan.advance top callers i).run invoke m = .ok (.inr (below, rest)) last)
    : ((s.after ⟨.executes top.frame i, m⟩).through points).Stands floor (below :: rest) := by
  have lower := (List.pairwise_cons.mp stands.descends).1
  have knows := stands.knows top (List.mem_cons_self ..)
  have nests := nested _ (Plan.advance_deep top callers i)
  have kept {k : Nat} (within : k < top.frame.depth + 1) := nests.spares (s.level, k) (.inr ⟨rfl, within⟩)
  have lower_stand : ((s.after ⟨.executes top.frame i, m⟩).through points).Stands floor callers := by
    refine stands.tail.goes nests.level fun layer member => ?_
    have less := lower layer member
    exact (agrees_executes (.inl less)).trans (kept (Nat.lt_succ_of_lt less))
  have topped {next : Frame} (resume : Resume)
      (knows : ((s.after ⟨.executes top.frame i, m⟩).through points).Knows next)
      (depth : next.depth = top.frame.depth)
      : ((s.after ⟨.executes top.frame i, m⟩).through points).Stands floor
          (⟨next, resume⟩ :: callers) :=
    lower_stand.push knows (depth ▸ stands.above top (List.mem_cons_self ..)) fun layer member =>
      depth ▸ lower layer member
  have goes_on (uncaptured : i.operation? ≠ some .closure) (next : Frame)
      (same : next.depth = top.frame.depth ∧ next.holdings = top.frame.holdings) (resume : Resume)
      : ((s.after ⟨.executes top.frame i, m⟩).through points).Stands floor
          (⟨next, resume⟩ :: callers) := by
    have agrees := (agrees_executes (.inr ⟨rfl, uncaptured⟩)).trans (kept (Nat.lt_succ_self _))
    exact topped resume (knows.goes nests.level agrees same.1 same.2) same.1
  have as := Plan.advance_as top callers i
  generalize Plan.advance top callers i = plan at as nested ran
  cases as with
  | calls resume called =>
      have uncaptured : i.operation? ≠ some .closure := by
        rcases called with called | called <;> rw [called] <;> nofun
      have calling := goes_on uncaptured (Plan.past top).frame ⟨rfl, rfl⟩ top.resume
      rcases Plan.invokes_ok ran with ⟨ref, callee, resolved, opened, rfl, rfl⟩ | ⟨results, delivered⟩
      · have activates : m.activates? (top.frame.read i.a) = some ref := by
          unfold Machine.activates?
          rw [show Vm.resolve (top.frame.read i.a) m = _ from resolved]
        have opens : Point.opens? ⟨.executes top.frame i, m⟩ = some (ref, top.frame.depth + 1) := by
          unfold Point.opens?
          dsimp only
          rw [if_pos called, activates]
          rfl
        obtain ⟨opening, depth⟩ := knows_opened opens opened rfl
        have inside := nested _ (Plan.invokes_deep (Plan.past top).frame i resume (Plan.past top :: callers))
        have within : callee.depth < top.frame.depth + 2 := depth ▸ Nat.lt_succ_self _
        have agrees := inside.spares (s.level, callee.depth) (.inr ⟨rfl, within⟩)
        have deeper : ∀ layer ∈ Plan.past top :: callers, layer.frame.depth < callee.depth := by
          rw [depth]
          refine List.forall_mem_cons.mpr ⟨Nat.lt_succ_self _, fun layer member => ?_⟩
          exact Nat.lt_succ_of_lt (lower layer member)
        have above : floor ≤ callee.depth :=
          depth ▸ Nat.le_succ_of_le (stands.above top (List.mem_cons_self ..))
        exact calling.push (opening.goes nests.level agrees rfl rfl) above deeper
      · exact calling.delivers delivered
  | executes op operation =>
      rw [Plan.run_bind, Plan.run_execute] at ran
      obtain ⟨now, middle, executed, ends⟩ := Run.of_bind_ok ran
      cases ends
      by_cases closes : op = .closure
      · subst closes
        obtain ⟨made, depth⟩ := knows_closed knows operation executed
        have agrees := kept (Nat.lt_succ_self _)
        exact topped top.resume (made.goes nests.level (depth ▸ agrees) rfl rfl) depth
      · have lasts := Stands.lasts (Plan.past top).frame
        have same := (Vm.execute_gives lasts invoke ⟨rfl, rfl⟩ closes i).result executed
        exact goes_on (fun is => closes (Option.some.inj (operation.symm.trans is))) now same top.resume
  | returns results => exact lower_stand.delivers (EStateM.Result.ok.inj ran).1
  | fails fault => cases ran

namespace Nests

/-- By induction over the fuel of a stack. -/
theorem of_stack {invoke : Invoke} {record : Invocation → Machine → List Point}
    (calls : ∀ (s : Story) call now, s.Nests call.depth (record call now)) (fuel : Nat) {top : Layer}
    {callers : List Layer} (stands : s.Stands floor (top :: callers)) (m : Machine)
    : s.Nests floor (stackTrace invoke record fuel top callers m) := by
  induction fuel generalizing s top callers m with
  | zero => exact .nil s floor
  | succ fuel ih =>
      unfold stackTrace
      rcases Vm.fetch top.frame m with ⟨i, charged⟩ | ⟨halt, failed⟩
      case error => exact .nil s floor
      have nested (d : Nat) (deep : (Plan.advance top callers i).Deep d)
          : (s.after ⟨.executes top.frame i, charged⟩).Nests d
              ((Plan.advance top callers i charged).trace invoke record
                (Request.trace invoke record)) :=
        of_course calls (fun _ => of_request calls) (deep.course charged)
      have above := stands.above top (List.mem_cons_self ..)
      have inside := (nested _ (Plan.advance_deep ..)).mono (Nat.le_succ_of_le above)
      have executes : s.Nests floor (⟨.executes top.frame i, charged⟩
          :: (Plan.advance top callers i charged).trace invoke record
            (Request.trace invoke record)) := by
        refine .cons (fun frame i executes => ?_) rfl (fun key less => ?_) inside
        · cases executes
          exact stands.knows top (List.mem_cons_self ..)
        · refine agrees_after s (fun ref depth opens same => ?_) fun frame j executes _ same => ?_
          · obtain ⟨rfl, -⟩ := opens_executes opens
            subst same
            dsimp only at less
            omega
          · cases executes
            subst same
            dsimp only at less
            omega
      refine executes.append ?_
      rcases ran : (Plan.advance top callers i).run invoke charged with
        ⟨results | ⟨next, rest⟩, after⟩ | ⟨halt, after⟩
      · exact .nil _ floor
      · exact ih (stands.advance nested ran) after
      · exact .nil _ floor

/-- By induction over the fuel of a call. -/
theorem of_call (fuel : Nat) (s : Story) (call : Invocation) (m : Machine)
    : s.Nests call.depth (callTrace fuel call m) := by
  induction fuel generalizing s call m with
  | zero => exact .nil s _
  | succ fuel ih =>
      unfold callTrace
      refine append ?_ (of_failures _)
      have nested : (s.after ⟨.called call, m⟩).Nests (call.depth + 1)
          ((Plan.start call m).trace (Vm.call fuel) (callTrace fuel)
            (Request.trace (Vm.call fuel) (callTrace fuel))) :=
        of_course ih (fun _ => of_request ih) ((Plan.start_deep call).course m)
      have begins : s.Nests call.depth (⟨.called call, m⟩
          :: (Plan.start call m).trace (Vm.call fuel) (callTrace fuel)
            (Request.trace (Vm.call fuel) (callTrace fuel))) := by
        refine .cons (fun _ _ => Mark.noConfusion) rfl (fun key less => ?_)
          (nested.mono (Nat.le_succ _))
        refine agrees_after s (fun ref depth opens same => ?_) fun _ _ => Mark.noConfusion
        obtain ⟨_, -, opened⟩ := Option.map_eq_some_iff.mp opens
        cases opened
        subst same
        dsimp only at less
        omega
      refine begins.append ?_
      rcases ran : (Plan.start call).run (Vm.call fuel) m with
        ⟨results | frame, after⟩ | ⟨halt, after⟩
      · exact .nil _ _
      · obtain ⟨ref, resolved, opened⟩ := Plan.start_ok ran
        have activates : m.activates? call.f = some ref := by
          unfold Machine.activates?
          rw [resolved]
        have opens : Point.opens? ⟨.called call, m⟩ = some (ref, call.depth) :=
          congrArg (Option.map (·, call.depth)) activates
        obtain ⟨opening, depth⟩ := knows_opened opens opened rfl
        have within : frame.depth < call.depth + 1 := depth ▸ Nat.lt_succ_self _
        have agrees := nested.spares (s.level, frame.depth) (.inr ⟨rfl, within⟩)
        have knows := opening.goes nested.level agrees rfl rfl
        exact of_stack ih fuel (.single knows (Nat.le_of_eq depth.symm)) after
      · exact .nil _ _

/-- A session of the host is about no activation but its own. -/
theorem of_session (fuel : Nat) (session : HostProgram) (s : Story) (m : Machine)
    : s.Nests 0 (session.trace fuel m) :=
  of_course (of_call fuel) (fun _ => of_request (of_call fuel)) (Course.deep_zero _)

end Nests

/-- The story after the points of a log. -/
def of (log : List Point) : Story :=
  through {} log

theorem toLineage_of (log : List Point) : (of log).toLineage = Lineage.of log :=
  toLineage_through log {}

@[simp]
theorem of_append (log : List Point) (point : Point)
    : of (log ++ [point]) = (of log).after point :=
  through_append {} log [point]

end Story

/-- Every activation that executes in a session is known where it does, by induction over the sessions.
-/
theorem Machine.Interleaved.recounts {config : Config} {log : List Point}
    (life : Interleaved config log m)
    : Story.Recounts {} log ∧ (Story.of log).level = 0 := by
  induction life with
  | starts heap => exact ⟨trivial, rfl⟩
  | @session log m before context prototypes fuel program ih =>
      obtain ⟨recounts, level⟩ := ih
      let begins : Point := ⟨.left, { m with context, prototypes }⟩
      have nests := Story.Nests.of_session fuel program ((Story.of log).after begins)
        { m with context, prototypes }
      have outer : ((Story.of log).after begins).level = 0 := by
        change (Story.of log).level - 1 = 0
        rw [level]
      constructor
      · exact Story.recounts_append.mpr ⟨recounts, fun _ _ => Mark.noConfusion, nests.recounts⟩
      · rw [Story.of, Story.through_append]
        exact nests.level.trans outer

end HookMachine
