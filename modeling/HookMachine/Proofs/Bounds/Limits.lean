import HookMachine.Proofs.Bounds.Log
import Mathlib.Data.List.Perm.Subperm

/-!
The limits on depth and instructions. At every moment of an entry from the host the open
activations lie at different depths within the limit, and instructions are counted from the
entry on, so that no more of them are executed than the limit allows.
-/

namespace HookMachine

variable {α β : Type}

/-- From the innermost on outwards open activations get less deep, and none is too deep. -/
structure Descending (limit : Nat) (opened : List Frame) : Prop where
  descends : opened.Pairwise fun inner outer => outer.depth < inner.depth
  bounded : ∀ frame ∈ opened, frame.depth ≤ limit

/-- What is deeper than the innermost activation is deeper than all. -/
theorem Descending.below {limit depth : Nat} {frame : Frame} {rest : List Frame}
    (descending : Descending limit (frame :: rest)) (deeper : frame.depth < depth)
    : ∀ other ∈ frame :: rest, other.depth < depth := by
  refine List.forall_mem_cons.mpr ⟨deeper, fun other member => ?_⟩
  exact Nat.lt_trans ((List.pairwise_cons.mp descending.descends).1 other member) deeper

/-- A stack on top of what is open below. -/
theorem Descending.stack {limit base : Nat} {outer : List Frame} {stack : List Layer}
    (descending : Descending limit outer) (below : ∀ frame ∈ outer, frame.depth < base)
    (stacked : Stacked base limit stack)
    : Descending limit (stack.map (·.frame) ++ outer) := by
  refine ⟨List.pairwise_append.mpr ⟨?_, descending.descends, ?_⟩, ?_⟩
  · exact List.pairwise_map.mpr stacked.descends
  · intro inner member frame open_below
    obtain ⟨layer, held, rfl⟩ := List.mem_map.mp member
    exact Nat.lt_of_lt_of_le (below frame open_below) (stacked.within layer held).1
  · intro frame member
    rcases List.mem_append.mp member with above | open_below
    · obtain ⟨layer, held, rfl⟩ := List.mem_map.mp above
      exact (stacked.within layer held).2
    · exact descending.bounded frame open_below

namespace Regime

variable {regime : Regime} {m after : Machine} {log : List Moment}

/-- The moments of an operation from a machine, with what it comes to: at each the open
activations descend, and what the machine has counted at the end is counted by the log.
-/
structure Recorded (regime : Regime) (m : Machine) (log : List Moment)
    (outcome : EStateM.Result (Halt Fault) Machine α) (post : α → Prop) : Prop where
  descending : ∀ moment ∈ log, Descending regime.config.limits.callDepth moment.opened
  counted : match outcome with
    | .ok a after =>
        regime.Governs after ∧ Counted regime.config.limits m.steps log after.steps ∧ post a
    | .error (.failed _) after =>
        regime.Governs after ∧ Counted regime.config.limits m.steps log after.steps
    | .error .outOfFuel _ => ∃ stop, Counted regime.config.limits m.steps log stop

namespace Recorded

variable {first second : List Moment} {outcome : EStateM.Result (Halt Fault) Machine α}
  {post better : α → Prop}

/-- Where nothing is executed, nothing is recorded. -/
theorem silent (idled : regime.Idled m post outcome) : regime.Recorded m [] outcome post := by
  refine ⟨fun _ member => (List.not_mem_nil member).elim, ?_⟩
  rcases outcome with ⟨a, after⟩ | ⟨_ | _, after⟩
  · exact ⟨idled.1.governs, idled.1.steps ▸ .nil _, idled.2⟩
  · exact ⟨idled.governs, idled.steps ▸ .nil _⟩
  · exact idled.elim

/-- Idling first changes nothing of what is recorded. -/
theorem idling (later : regime.Recorded after log outcome post) (idles : regime.Idles m after)
    : regime.Recorded m log outcome post :=
  ⟨later.descending, idles.steps ▸ later.counted⟩

variable {x : Vm α} {f : α → Vm β} {more : α → Machine → List Moment} {last : β → Prop}

theorem bind (recorded : regime.Recorded m log (x m) post)
    (rest : ∀ a after, regime.Onward m after → post a
      → regime.Recorded after (more a after) (f a after) last)
    : regime.Recorded m (log ++ following (x m) more) ((x >>= f) m) last := by
  obtain ⟨descending, counted⟩ := recorded
  change regime.Recorded m (log ++ following (x m) more) (EStateM.bind x f m) last
  unfold EStateM.bind following
  rcases ran : x m with ⟨a, after⟩ | ⟨_ | _, after⟩ <;> rw [ran] at counted
  · obtain ⟨governs, counted, holds⟩ := counted
    have later := rest a after ⟨governs, counted.le⟩ holds
    refine ⟨fun moment member => ?_, ?_⟩
    · exact (List.mem_append.mp member).elim (descending moment) (later.descending moment)
    · have counts := later.counted
      dsimp only
      generalize f a after = outcome at counts
      rcases outcome with ⟨b, final⟩ | ⟨_ | _, final⟩
      · exact ⟨counts.1, counted.append counts.2.1, counts.2.2⟩
      · exact ⟨counts.1, counted.append counts.2⟩
      · exact counts.imp fun stop counts => counted.append counts
  · exact ⟨by simpa using descending, by simpa using counted⟩
  · exact ⟨by simpa using descending, by simpa using counted⟩

theorem attempt (recorded : regime.Recorded m log (x m) post)
    : regime.Recorded m log (Run.attempt x m) fun _ => True := by
  refine ⟨recorded.descending, ?_⟩
  have counted := recorded.counted
  unfold Run.attempt
  generalize x m = outcome at counted
  rcases outcome with ⟨a, after⟩ | ⟨_ | _, after⟩
  · exact ⟨counted.1, counted.2.1, trivial⟩
  · exact ⟨counted.1, counted.2, trivial⟩
  · exact counted

/-- Up to where a log counts, which is what the machine has counted at the end. -/
theorem stops (recorded : regime.Recorded m log outcome post)
    : ∃ stop, Counted regime.config.limits m.steps log stop
        ∧ ∀ after, ((∃ a, outcome = .ok a after) ∨ ∃ fault, outcome = .error (.failed fault) after)
          → after.steps = stop := by
  have counted := recorded.counted
  rcases outcome with ⟨a, after⟩ | ⟨fault | _, after⟩
  · refine ⟨_, counted.2.1, ?_⟩
    rintro _ (⟨_, ⟨⟩⟩ | ⟨_, ⟨⟩⟩)
    rfl
  · refine ⟨_, counted.2, ?_⟩
    rintro _ (⟨_, ⟨⟩⟩ | ⟨_, ⟨⟩⟩)
    rfl
  · obtain ⟨stop, counted⟩ := counted
    refine ⟨stop, counted, ?_⟩
    rintro _ (⟨_, ⟨⟩⟩ | ⟨_, ⟨⟩⟩)

end Recorded
end Regime

/-- What a steady course records, if the calls that it makes record as they should; by
induction over the course.
-/
theorem Course.Steady.recorded {regime : Regime} {asks : Request → Prop} {floor : Nat}
    {post : α → Prop} {invoke : Invoke} {record : Invocation → Machine → List Moment}
    {course : Course α} {m : Machine} (steady : course.Steady regime asks floor post m)
    (apart : ∀ request, asks request → request.enters = false)
    (calls : ∀ (call : Invocation) now, regime.Governs now → floor ≤ call.depth
      → regime.Recorded now (record call now) (call.run invoke now) fun _ => True)
    : regime.Recorded m (course.log invoke record) (course.run invoke) post := by
  induction course generalizing m with
  | ends outcome => exact .silent steady
  | calls call now next ih =>
      obtain ⟨idles, deeper, goes⟩ := steady
      refine .idling ?_ idles
      rw [Plan.run_calls call now next]
      exact (calls call now idles.governs deeper).attempt.bind fun results after onward _ =>
        ih results after (goes results after onward)
  | asks request now next ih =>
      obtain ⟨idles, asked, goes⟩ := steady
      have idle : regime.Idle (Course.answer invoke request) :=
        (serve_idle invoke (apart request asked)).attempt.mapError _
      have answered : regime.Recorded now [] (answer invoke request now) fun _ => True :=
        .silent (idle.outcome now idles.governs)
      refine .idling ?_ idles
      rw [Plan.run_asks request now next]
      exact answered.bind fun reply after onward _ => ih reply after (goes reply after onward)

-----------------------------------------------------------------------------------------
-- Stacks and calls
-----------------------------------------------------------------------------------------

namespace Regime

/-- The moment at which an instruction comes up counts it if it is charged for. -/
theorem fetch_recorded {regime : Regime} {m : Machine} {frame : Frame} {rest : List Frame}
    (governs : regime.Governs m)
    (descending : Descending regime.config.limits.callDepth (frame :: rest))
    : regime.Recorded m [⟨frame :: rest, m⟩] (Vm.fetch frame m) fun _ => True := by
  refine ⟨List.forall_mem_singleton.mpr descending, ?_⟩
  have limited : m.config.limits = regime.config.limits := congrArg Config.limits governs.config
  have counts {stop : Nat} (stops : stop = m.steps + regime.config.limits.toll ⟨frame :: rest, m⟩)
      : Counted regime.config.limits m.steps [⟨frame :: rest, m⟩] stop :=
    .cons limited rfl (stops ▸ .nil _)
  rcases Vm.fetch_cases frame m with ⟨fault, failed⟩ | ⟨i, ⟨free, fetched⟩ | ⟨below, fetched⟩⟩
  · rw [failed]
    refine ⟨governs, counts ?_⟩
    simp [Limits.toll, Moment.executes, failed]
  · rw [fetched]
    refine ⟨governs, counts ?_, trivial⟩
    simp [Limits.toll, ← limited, free]
  · rw [fetched]
    refine ⟨⟨governs.config, governs.employs⟩, counts ?_, trivial⟩
    simp [Limits.toll, Moment.executes, fetched, ← limited, Nat.zero_lt_of_lt below]

variable {regime : Regime} {asks : Request → Prop}
  (programs : ∀ f, regime.allows f → HostFunction.Within regime.allows asks f)
  (apart : ∀ request, asks request → request.enters = false)

include programs apart

/-- What a run of a stack records, if the calls that its instructions make record as they
should; by induction over the instructions.
-/
theorem stackLog_recorded {invoke : Invoke}
    {record : List Frame → Invocation → Machine → List Moment}
    (calls : ∀ opened (call : Invocation) now, regime.Governs now
      → Descending regime.config.limits.callDepth opened
      → (∀ frame ∈ opened, frame.depth < call.depth)
      → regime.Recorded now (record opened call now) (call.run invoke now) fun _ => True)
    {outer : List Frame} {base : Nat}
    (descending : Descending regime.config.limits.callDepth outer)
    (below : ∀ frame ∈ outer, frame.depth < base) (fuel : Nat) {top : Layer}
    {callers : List Layer}
    (stacked : Stacked base regime.config.limits.callDepth (top :: callers)) {m : Machine}
    (governs : regime.Governs m)
    : regime.Recorded m (stackLog invoke record outer fuel top callers m)
        (Vm.runFrames invoke fuel top callers m) fun _ => True := by
  induction fuel generalizing top callers m with
  | zero => exact ⟨fun _ member => (List.not_mem_nil member).elim, _, .nil _⟩
  | succ fuel ih =>
      have opened := descending.stack below stacked
      rw [Plan.runFrames_eq]
      refine (fetch_recorded governs opened).bind fun i charged charges _ => ?_
      have steady := (Plan.advance_steady programs stacked i).course charged charges.governs
      refine (steady.recorded apart fun call now governs deeper => ?_).bind
        fun flow after onward stacked => ?_
      · exact calls _ call now governs opened (opened.below deeper)
      · rcases flow with results | ⟨top, callers⟩
        · exact .silent ⟨.refl onward.governs, trivial⟩
        · exact ih stacked onward.governs

/-- What a call records; by induction over the fuel, which bounds how calls are nested. -/
theorem callLog_recorded (fuel : Nat) {outer : List Frame} {call : Invocation} {m : Machine}
    (governs : regime.Governs m)
    (descending : Descending regime.config.limits.callDepth outer)
    (below : ∀ frame ∈ outer, frame.depth < call.depth)
    : regime.Recorded m (callLog fuel outer call m) (call.run (Vm.call fuel) m)
        fun _ => True := by
  induction fuel generalizing outer call m with
  | zero => exact ⟨fun _ member => (List.not_mem_nil member).elim, _, .nil _⟩
  | succ fuel ih =>
      rw [Plan.call_eq]
      have steady := (Plan.start_steady programs call).course m governs
      refine (steady.recorded apart fun nested now governs deeper => ?_).bind
        fun flow after onward activates => ?_
      · exact ih governs descending fun frame member =>
          Nat.lt_trans (below frame member) deeper
      · rcases flow with results | frame
        · exact .silent ⟨.refl onward.governs, trivial⟩
        · obtain ⟨same, to_limit⟩ := activates
          refine stackLog_recorded programs apart
            (fun opened call now governs descending below => ih governs descending below)
            descending below fuel (.single ?_ ?_) onward.governs
          · exact Nat.le_of_eq same.symm
          · exact same ▸ to_limit

end Regime
-----------------------------------------------------------------------------------------
-- Entries from the host
-----------------------------------------------------------------------------------------

/-- A call, or the reading or writing of a field, from the host. -/
inductive Entry where
  | call (f : Value) (arguments : List Value)
  | index (object key : Value)
  | assign (object key value : Value)

namespace Entry

/-- What an entry does, its result aside. -/
def plan : Entry → Plan Unit
  | .call f arguments => do let _ ← Plan.call f arguments none 0
  | .index object key => do let _ ← Plan.index object key 0
  | .assign object key value => Plan.assign object key value 0

/-- Runs an entry in the machine that it has entered. -/
def run (fuel : Nat) (entry : Entry) : Vm Unit :=
  entry.plan.run (Vm.call fuel)

/-- The moments of an entry, all nested calls included. -/
def log (fuel : Nat) (entry : Entry) (m : Machine) : List Moment :=
  (entry.plan m.enter).log (Vm.call fuel) (callLog fuel [])

theorem run_call (fuel : Nat) (f : Value) (arguments : List Value)
    : (call f arguments).run fuel = (do let _ ← Vm.call fuel f arguments none 0) := by
  simp [run, plan]

theorem run_index (fuel : Nat) (object key : Value)
    : (index object key).run fuel = (do let _ ← Vm.index (Vm.call fuel) object key 0) := by
  simp [run, plan]

theorem run_assign (fuel : Nat) (object key value : Value)
    : (assign object key value).run fuel = Vm.assign (Vm.call fuel) object key value 0 := by
  simp [run, plan]

theorem plan_steady {regime : Regime} {asks : Request → Prop} (entry : Entry)
    : entry.plan.Steady regime asks 0 fun _ => True := by
  cases entry with
  | call f arguments => exact .andThen (.call (Nat.le_refl 0)) fun _ => .pure trivial
  | index object key =>
      exact (Plan.index_steady (Nat.zero_le _) object key).andThen fun _ => .pure trivial
  | assign object key value => exact Plan.assign_steady (Nat.zero_le _) object key value

end Entry

/-- The open activations lie at different depths up to a limit. -/
structure Moment.WithinDepth (limit : Nat) (moment : Moment) : Prop where
  distinct : (moment.opened.map (·.depth)).Nodup
  bounded : ∀ frame ∈ moment.opened, frame.depth ≤ limit
  few : moment.opened.length ≤ limit + 1

theorem Descending.withinDepth {limit : Nat} {moment : Moment}
    (descending : Descending limit moment.opened)
    : moment.WithinDepth limit := by
  have distinct : (moment.opened.map (·.depth)).Nodup :=
    List.pairwise_map.mpr (descending.descends.imp fun deeper => Nat.ne_of_gt deeper)
  refine ⟨distinct, descending.bounded, ?_⟩
  have among : moment.opened.map (·.depth) ⊆ List.range (limit + 1) := by
    intro depth member
    obtain ⟨frame, held, rfl⟩ := List.mem_map.mp member
    exact List.mem_range.mpr (Nat.lt_succ_of_le (descending.bounded frame held))
  simpa using (List.Nodup.subperm distinct among).length_le

/-- Machines count the instructions that are executed, of which there are `total`. -/
structure Metered (log : List Moment) (total : Nat) : Prop where
  total_eq : log.countP Moment.executes = total
  ascends : log.Pairwise fun earlier later => earlier.machine.steps ≤ later.machine.steps
  counts : ∀ before moment after, log = before ++ moment :: after
    → moment.machine.steps = before.countP Moment.executes

/-- Natives that re-enter the machine only through calls within the running one keep every entry
within the limits. At every moment the open activations lie at different depths up to the limit.
Where instructions are limited, those that the entry executes are counted, nested calls whose
errors went nowhere included; the count never goes down and stays within the limit.
-/
theorem Entry.within_limits {allows : HostFunction → Prop}
    (contained : ∀ f, allows f → HostFunction.Within allows (fun r => r.enters = false) f)
    {m : Machine} (employs : m.Employs allows) (entry : Entry) (fuel : Nat)
    : (∀ moment ∈ entry.log fuel m, moment.WithinDepth m.config.limits.callDepth)
      ∧ (0 < m.config.limits.instructions
        → ∃ total ≤ m.config.limits.instructions, Metered (entry.log fuel m) total
          ∧ ∀ after, ((∃ a, entry.run fuel m.enter = .ok a after)
              ∨ ∃ fault, entry.run fuel m.enter = .error (.failed fault) after)
            → after.steps = total) := by
  let regime : Regime := { config := m.config, allows }
  let apart (r : Request) : Prop := r.enters = false
  have governs : regime.Governs m.enter := ⟨rfl, employs⟩
  have steady : entry.plan.Steady regime apart 0 fun _ => True := entry.plan_steady
  have recorded : regime.Recorded m.enter (entry.log fuel m) (entry.run fuel m.enter)
      fun _ => True :=
    (steady.course m.enter governs).recorded (fun _ aside => aside) fun call now governs _ =>
      Regime.callLog_recorded contained (fun _ aside => aside) fuel governs
        ⟨.nil, by simp⟩ (by simp)
  refine ⟨fun moment member => (recorded.descending moment member).withinDepth, fun limited => ?_⟩
  obtain ⟨stop, (counted : Counted m.config.limits 0 _ stop), ends⟩ := recorded.stops
  have total : stop = (entry.log fuel m).countP Moment.executes := by
    simpa using counted.stop_eq limited
  refine ⟨stop, counted.stop_le limited (Nat.zero_le _), ⟨total.symm, counted.ascends, ?_⟩, ends⟩
  intro before moment after same
  have counts := (same ▸ counted).steps_eq limited
  simpa using counts

/-- A closure and a native call each other, and the native goes on when its call fails: five
instructions are executed where five are allowed.
-/
theorem Entry.within_limits_regress
    : ∃ (allows : HostFunction → Prop) (m : Machine) (entry : Entry),
        (∀ f, allows f → HostFunction.Within allows (fun r => r.enters = false) f)
        ∧ m.Employs allows ∧ m.config.limits.instructions = 5
        ∧ (∀ moment ∈ entry.log 12 m, moment.WithinDepth m.config.limits.callDepth)
        ∧ ∃ total ≤ 5, Metered (entry.log 12 m) total ∧ total = 5 := by
  let start : Machine := .bare 1 { limits := { instructions := 5 } }
  let code : Array Instruction := #[.abc .call 0 1 1, .abc .ret 0 1 0]
  let made : Closure := { prototype := ⟨0⟩, upvalues := #[], environment := start.globals }
  let closure : Value := .closure ⟨⟨1, 0, 0⟩⟩
  let native : Value := .native ⟨⟨1, 0, 0⟩⟩
  let again : HostFunction :=
    fun _ arguments => .call closure [native] fun _ => .finish arguments
  let m : Machine :=
    { start with
      prototypes := (PrototypeStore.insert {} { code, parameters := 1 }).2
      heap.closures := (start.heap.closures.insert made).2
      heap.natives := (start.heap.natives.insert { name := "again", body := .host again }).2 }
  let allows (f : HostFunction) : Prop := f = again
  have contained (f : HostFunction) (same : allows f)
      : HostFunction.Within allows (fun r => r.enters = false) f := by
    rw [same]
    exact fun _ _ => .call fun _ => .finish _
  have employs : m.Employs allows := by
    intro handle n found f body
    rcases Arena.get_insert.mp found with ⟨-, rfl⟩ | found
    · cases body
      rfl
    · exact absurd found (Arena.get_empty 1 handle n)
  obtain ⟨depths, counts⟩ := Entry.within_limits contained employs (.call closure [native]) 12
  obtain ⟨total, bounded, metered, -⟩ := counts (by decide)
  refine ⟨allows, m, .call closure [native], contained, employs, rfl, depths, total, bounded,
    metered, metered.total_eq.symm.trans ?_⟩
  decide +kernel

end HookMachine
