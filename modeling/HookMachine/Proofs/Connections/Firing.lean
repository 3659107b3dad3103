import HookMachine.Proofs.Connections.Points
import HookMachine.Proofs.Execution.Redirects

/-!
Firing of signals. The connections that a signal has when it is fired come to their turns in ascending
order, and each is looked at again when its turn comes, whatever was done to it meanwhile.
-/

namespace HookMachine

variable {ε : Type} {m after : Machine}

-----------------------------------------------------------------------------------------
-- Growing registries
-----------------------------------------------------------------------------------------

namespace ConnectionRegistry

variable {before middle last : ConnectionRegistry}

/-- Connections keep their places and signals, and a callback that is given up is not replaced. -/
def Grows (before after : ConnectionRegistry) : Prop :=
  ∀ (index : Nat) connection, before[index]? = some connection
    → ∃ now, after[index]? = some now ∧ now.signal = connection.signal
        ∧ (now.callback = connection.callback ∨ now.callback = none)

namespace Grows

theorem refl (registry : ConnectionRegistry) : registry.Grows registry :=
  fun _ connection found => ⟨connection, found, rfl, .inl rfl⟩

theorem trans (first : before.Grows middle) (second : middle.Grows last) : before.Grows last := by
  intro index connection found
  obtain ⟨between, found, signal, callback⟩ := first index connection found
  obtain ⟨now, found, same, kept⟩ := second index between found
  refine ⟨now, found, same.trans signal, ?_⟩
  rcases kept with kept | gone
  · exact callback.imp kept.trans kept.trans
  · exact .inr gone

theorem push (registry : ConnectionRegistry) (connection : Connection)
    : registry.Grows (registry.push connection) := by
  intro index old found
  obtain ⟨inside, -⟩ := Array.getElem?_eq_some_iff.mp found
  refine ⟨old, ?_, rfl, .inl rfl⟩
  rw [Array.getElem?_push, if_neg (Nat.ne_of_lt inside), found]

theorem modify (registry : ConnectionRegistry) (place : Nat) {change : Connection → Connection}
    (keeps : ∀ connection, (change connection).signal = connection.signal
      ∧ ((change connection).callback = connection.callback ∨ (change connection).callback = none))
    : registry.Grows (registry.modify place change) := by
  intro index connection found
  rw [Array.getElem?_modify, found]
  split
  · exact ⟨change connection, rfl, keeps connection⟩
  · exact ⟨connection, rfl, rfl, .inl rfl⟩

end Grows

theorem grows_setEnabled (registry : ConnectionRegistry) (index : Nat) (on : Bool)
    : registry.Grows (registry.setEnabled index on) := by
  refine .modify registry index fun connection => ?_
  split <;> exact ⟨rfl, .inl rfl⟩

theorem grows_disconnect (registry : ConnectionRegistry) (index : Nat)
    : registry.Grows (registry.disconnect index) :=
  .modify registry index fun _ => ⟨rfl, .inr rfl⟩

end ConnectionRegistry

/-- Whatever is done to the connections of a machine, they grow. -/
theorem Machine.grows_wired (m : Machine) (w : Wiring)
    : ConnectionRegistry.Grows m.connections (m.wired w).connections := by
  cases w with
  | setEnabled index on => exact ConnectionRegistry.grows_setEnabled m.connections index on
  | disconnect index =>
      rw [wired_disconnect, (calm_letGoAll _ _).connections]
      exact ConnectionRegistry.grows_disconnect m.connections index
  | register signal callback =>
      unfold wired
      dsimp only
      cases accepted : m.accepts callback with
      | true =>
          rw [register_of_accepts accepted]
          exact ConnectionRegistry.Grows.push m.connections _
      | false =>
          obtain ⟨failure, refused⟩ := register_of_not_accepts accepted signal
          rw [refused]
          exact .refl _

theorem Point.Moves.grows {point : Point} (moves : point.Moves m)
    : ConnectionRegistry.Grows point.machine.connections m.connections := by
  rw [moves.connections]
  unfold wired
  split
  · exact point.machine.grows_wired _
  · exact .refl _

/-- Connections grow throughout a call, by induction over its points. -/
theorem Machine.grows_call (fuel : Nat) (call : Invocation) (m : Machine)
    : ConnectionRegistry.Grows m.connections (call.run (Vm.call fuel) m).last.connections := by
  have linked := (stretch_call fuel call m).linked ⟨.left, m⟩ (.refl rfl)
  let P (_ : List Point) (now : Machine) : Prop :=
    ConnectionRegistry.Grows m.connections now.connections
  have step (log : List Point) (p : Point) (now : Machine) (held : P log p.machine)
      (moves : p.Moves now) (_ : p.Opened log now)
      : P (log ++ [p]) now :=
    held.trans moves.grows
  exact linked.holds_last (P := P) step [] (.refl _) (Point.opened_of_ne (by nofun) _)

-----------------------------------------------------------------------------------------
-- Turns
-----------------------------------------------------------------------------------------

namespace Connection

/-- The turn of a connection in a firing, and the machine in which it comes. -/
structure Turn where
  index : Nat
  now : Machine

namespace Turn

/-- The callback that the connection has when its turn comes, if it is connected and enabled then. -/
def callback? (turn : Turn) : Option Value :=
  ConnectionRegistry.callback? turn.now.connections turn.index

/-- The callback is run, and fails at most silently. -/
def attempted (turn : Turn) : Bool :=
  turn.callback?.isSome

/-- The points of a turn, where those of running a callback are what `record` says. -/
def points (record : Value → Machine → List Point) (turn : Turn) : List Point :=
  turn.callback?.elim [] fun callback => record callback turn.now

end Turn

variable {run : Value → Vm (List Value)} {index : Nat} {indices : List Nat}

/-- The turns of connections that are fired one after the other, until the fuel runs out. -/
def turns (run : Value → Vm (List Value)) : List Nat → Machine → List Turn
  | [], _ => []
  | index :: rest, m =>
      ⟨index, m⟩ :: (fire run index m).sequel fun _ after => turns run rest after

theorem fire_of_silent (silent : ConnectionRegistry.callback? m.connections index = none)
    : fire run index m = .ok false m := by
  refine (Run.bind_get ..).trans ?_
  rw [silent]
  rfl

/-- A connection that is not enabled is passed over. Of the others the callback is run, and nothing but
the lack of fuel is passed on from it.
-/
theorem fire_cases (run : Value → Vm (List Value)) (index : Nat) (m : Machine)
    : (ConnectionRegistry.callback? m.connections index = none ∧ fire run index m = .ok false m)
      ∨ ∃ callback, ConnectionRegistry.callback? m.connections index = some callback
          ∧ (fire run index m = .ok true (run callback m).last
            ∨ ∃ after, run callback m = .error .outOfFuel after
              ∧ fire run index m = .error .outOfFuel after) := by
  cases known : ConnectionRegistry.callback? m.connections index with
  | none => exact .inl ⟨rfl, fire_of_silent known⟩
  | some callback =>
      refine .inr ⟨callback, rfl, ?_⟩
      rw [fire_of_callback known]
      change EStateM.bind _ _ m = _ ∨ ∃ after, _ ∧ EStateM.bind _ _ m = _
      unfold EStateM.bind Run.attempt
      rcases run callback m with ⟨results, after⟩ | ⟨fault | _, after⟩
      · exact .inl rfl
      · exact .inl rfl
      · exact .inr ⟨after, rfl, rfl⟩

/-- How a firing of connections ends, by the turns that they have: all of them have one and those that
are attempted are counted, unless a callback that is attempted does not end.
-/
def Ends (run : Value → Vm (List Value)) (indices : List Nat) (m : Machine)
    (outcome : EStateM.Result (Halt ε) Machine Nat) : Prop :=
  (∃ after, outcome = .ok ((turns run indices m).countP (·.attempted)) after
      ∧ (turns run indices m).map (·.index) = indices)
    ∨ ∃ turn callback after, turn ∈ turns run indices m ∧ turn.callback? = some callback
        ∧ run callback turn.now = .error .outOfFuel after ∧ outcome = .error .outOfFuel after
        ∧ (turns run indices m).map (·.index) <+: indices

theorem turns_of_ok {ran : Bool} (fired : fire run index m = .ok ran after) (rest : List Nat)
    : turns run (index :: rest) m = ⟨index, m⟩ :: turns run rest after := by
  rw [turns, fired]
  rfl

/-- A firing goes on after the first turn. -/
theorem Ends.cons {ran : Bool} {rest : List Nat} (fired : fire run index m = .ok ran after)
    (told : ran = Turn.attempted ⟨index, m⟩) (ends : Ends run rest after (fireAll run rest after))
    : Ends run (index :: rest) m (fireAll run (index :: rest) m) := by
  have goes : fireAll run (index :: rest) m
      = (do
          let others ← fireAll run rest
          return others + if ran then 1 else 0 : Vm Nat) after :=
    Run.bind_ok fired
  unfold Ends
  rw [turns_of_ok fired, goes, List.map_cons]
  rcases ends with ⟨last, counted, listed⟩ | ⟨turn, callback, last, member, known, stuck, halted, listed⟩
  · refine .inl ⟨last, ?_, by rw [listed]⟩
    rw [Run.bind_ok counted, List.countP_cons, told]
    rfl
  · refine .inr ⟨turn, callback, last, .tail _ member, known, stuck, Run.bind_error halted, ?_⟩
    exact (List.prefix_cons_inj _).mpr listed

/-- Connections that are fired one after the other have their turns, by induction over their list. -/
theorem fireAll_ends (run : Value → Vm (List Value)) (indices : List Nat) (m : Machine)
    : Ends run indices m (fireAll run indices m) := by
  induction indices generalizing m with
  | nil => exact .inl ⟨m, rfl, rfl⟩
  | cons index rest ih =>
      have attempted {callback? : Option Value}
          (known : ConnectionRegistry.callback? m.connections index = callback?)
          : callback?.isSome = Turn.attempted ⟨index, m⟩ :=
        (congrArg Option.isSome known).symm
      rcases fire_cases run index m with
        ⟨silent, fired⟩ | ⟨callback, known, fired | ⟨after, stuck, fired⟩⟩
      · exact .cons fired (attempted silent) (ih m)
      · exact .cons fired (attempted known) (ih _)
      · have only : turns run (index :: rest) m = [⟨index, m⟩] := by
          rw [turns, fired]
          rfl
        refine .inr ⟨⟨index, m⟩, callback, after, only ▸ .head _, known, stuck, Run.bind_error fired, ?_⟩
        rw [only]
        exact (List.prefix_cons_inj index).mpr (List.nil_prefix)

-----------------------------------------------------------------------------------------
-- Turns and points
-----------------------------------------------------------------------------------------

section

variable {invoke : Invoke} {record : Invocation → Machine → List Point}
  {requested : Request → Machine → List Point} (arguments : List Value)

theorem trace_fire (caller : Option ClosureRef) (depth index : Nat) (m : Machine)
    : (Plan.fire arguments caller depth index m).trace invoke record requested
      = Turn.points (fun callback => record ⟨callback, arguments, caller, depth⟩) ⟨index, m⟩ := by
  unfold Turn.points Turn.callback? Plan.fire
  change Course.trace _ _ _ (Course.bind (.ends (.ok m m)) _) = _
  rw [Course.bind]
  cases ConnectionRegistry.callback? m.connections index with
  | none => rfl
  | some callback =>
      change ((Plan.tryCall callback arguments caller depth m).bind _).trace _ _ _ = _
      exact (Course.trace_bind_pure _ _).trans (Plan.trace_tryCall ..)

/-- The points of a firing from within the machine are those of its turns, by induction over the list of
connections.
-/
theorem trace_fireAll (caller : Option ClosureRef) (depth : Nat) (indices : List Nat) (m : Machine)
    : (Plan.fireAll arguments caller depth indices m).trace invoke record requested
      = (turns (invoke · arguments caller depth) indices m).flatMap
          (Turn.points fun callback => record ⟨callback, arguments, caller, depth⟩) := by
  induction indices generalizing m with
  | nil => rfl
  | cons index rest ih =>
      have fired : (Plan.fire arguments caller depth index m).run invoke = _ :=
        congrFun (Plan.run_fire arguments caller depth index) m
      change ((Plan.fire arguments caller depth index m).bind _).trace invoke record requested = _
      rw [Course.trace_bind, trace_fire, fired, turns, List.flatMap_cons]
      refine congrArg _ ?_
      cases fire (invoke · arguments caller depth) index m with
      | error halt after => rfl
      | ok ran after => exact (Course.trace_bind_pure _ _).trans (ih after)

/-- The points of an entry from the host to call a function. -/
def entryPoints (invoke : Invoke) (record : Invocation → Machine → List Point)
    (arguments : List Value) (callback : Value) (now : Machine)
    : List Point :=
  ⟨.entered, now.enter⟩ :: record ⟨callback, arguments, none, 0⟩ now.enter
    ++ failures (invoke callback arguments none 0 now.enter)
    ++ [⟨.left, (Vm.callFromHost invoke callback arguments now).last⟩]

/-- The points of firing a connection from the host, up to where the host goes on. -/
theorem trace_fire_errand {α : Type} (index : Nat) (next : Bool → Machine → Errand α) (m : Machine)
    : (Errand.fire arguments index next m).trace invoke record
      = Turn.points (entryPoints invoke record arguments) ⟨index, m⟩
        ++ (fire (Vm.callFromHost invoke · arguments) index m).sequel fun ran after =>
            (next ran after).trace invoke record := by
  unfold Turn.points Turn.callback? Errand.fire
  cases known : ConnectionRegistry.callback? m.connections index with
  | none =>
      rw [fire_of_silent known]
      rfl
  | some callback =>
      rw [fire_of_callback known]
      change Errand.trace _ _ (.enters _ m _)
        = entryPoints .. ++ EStateM.Result.sequel (EStateM.bind _ _ m) _
      unfold entryPoints Vm.callFromHost EStateM.bind
      rw [Errand.trace, Plan.trace_call, Plan.run_call, List.append_assoc _ [_]]
      refine congrArg _ (congrArg _ ?_)
      cases Run.attempt (Vm.enter (invoke callback arguments none 0)) m <;> rfl

/-- The points of a firing from the host are those of its turns, by induction over the list of
connections.
-/
theorem trace_fireAll_errand {α : Type} (indices : List Nat) (next : Nat → Machine → Errand α)
    (m : Machine)
    : (Errand.fireAll arguments indices next m).trace invoke record
      = (turns (Vm.callFromHost invoke · arguments) indices m).flatMap
          (Turn.points (entryPoints invoke record arguments))
        ++ (fireAll (Vm.callFromHost invoke · arguments) indices m).sequel fun count after =>
            (next count after).trace invoke record := by
  induction indices generalizing next m with
  | nil => rfl
  | cons index rest ih =>
      change (Errand.fire arguments index _ m).trace invoke record
        = _ ++ EStateM.Result.sequel (EStateM.bind _ _ m) _
      rw [trace_fire_errand, turns, List.flatMap_cons, List.append_assoc]
      refine congrArg _ ?_
      unfold EStateM.bind
      cases fire (Vm.callFromHost invoke · arguments) index m with
      | error halt after => rfl
      | ok ran after =>
          refine (ih _ after).trans (congrArg _ ?_)
          change _ = EStateM.Result.sequel (EStateM.bind _ _ after) _
          unfold EStateM.bind
          cases fireAll (Vm.callFromHost invoke · arguments) rest after <;> rfl

end

-----------------------------------------------------------------------------------------
-- Single connections
-----------------------------------------------------------------------------------------

/-- What firing a connection is: its callback, if there is one to run, is run once, only running out of
fuel is passed on from it, and what is told is whether there was one.
-/
structure Fires (run : Value → Vm (List Value)) (record : Value → Machine → List Point)
    (callback? : Option Value) (m : Machine) (outcome : EStateM.Result (Halt ε) Machine Bool)
    (points : List Point)
    : Prop where
  points : points = callback?.elim [] fun callback => record callback m
  passed : callback? = none → outcome = .ok false m
  ran : ∀ callback, callback? = some callback → outcome = .ok true (run callback m).last
    ∨ ∃ after, run callback m = .error .outOfFuel after ∧ outcome = .error .outOfFuel after

/-- Firing a connection from within a call, at any depth, and from the host. -/
structure Rings (m : Machine) (index : Nat) (callback? : Option Value) : Prop where
  nested (fuel : Nat) (arguments : List Value) (caller : Option ClosureRef) (depth : Nat)
    : Fires (Vm.call fuel · arguments caller depth)
        (fun callback => callTrace fuel ⟨callback, arguments, caller, depth⟩) callback? m
        (fire (Vm.call fuel · arguments caller depth) index m)
        ((Plan.fire arguments caller depth index m).trace (Vm.call fuel) (callTrace fuel)
          (Request.trace (Vm.call fuel) (callTrace fuel)))
  host (fuel : Nat) (arguments : List Value)
    : Fires (Vm.callFromHost (Vm.call fuel) · arguments)
        (entryPoints (Vm.call fuel) (callTrace fuel) arguments) callback? m
        (serve (Vm.call fuel) (.fire index arguments) m)
        (((Request.fire index arguments).errand m).trace (Vm.call fuel) (callTrace fuel))

theorem fires_fire {record : Value → Machine → List Point} {points : List Point}
    (told : points = Turn.points record ⟨index, m⟩)
    : Fires run record (ConnectionRegistry.callback? m.connections index) m (fire run index m)
        points := by
  refine ⟨told, fun silent => fire_of_silent silent, fun callback known => ?_⟩
  rcases fire_cases run index m with ⟨silent, -⟩ | ⟨other, also, fired⟩
  · cases known.symm.trans silent
  · cases known.symm.trans also
    exact fired

theorem Fires.mapError {ε' : Type} {x : Run ε Bool} {record : Value → Machine → List Point}
    {callback? : Option Value} {points : List Point} (f : ε → ε')
    (fires : Fires run record callback? m (x m) points)
    : Fires run record callback? m (Run.mapError f x m) points := by
  unfold Run.mapError
  refine ⟨fires.points, fun silent => ?_, fun callback known => ?_⟩
  · rw [fires.passed silent]
  · rcases fires.ran callback known with done | ⟨after, stuck, halted⟩
    · rw [done]
      exact .inl rfl
    · rw [halted]
      exact .inr ⟨after, stuck, rfl⟩

/-- What firing a connection runs is the callback that it has, if it is connected and enabled. -/
theorem rings (m : Machine) (index : Nat)
    : Rings m index (ConnectionRegistry.callback? m.connections index) where
  nested fuel arguments caller depth := fires_fire (trace_fire arguments caller depth index m)
  host fuel arguments := by
    refine Fires.mapError Failure.fault (fires_fire ?_)
    refine (trace_fire_errand arguments index (fun ran after => .ends (.ok ran after)) m).trans ?_
    cases fire (Vm.callFromHost (Vm.call fuel) · arguments) index m <;> exact List.append_nil _

-----------------------------------------------------------------------------------------
-- Signals
-----------------------------------------------------------------------------------------

/-- The turns of the connections that a signal has when it is fired. -/
def signalTurns (run : Value → Vm (List Value)) (signal : String) (m : Machine) : List Turn :=
  turns run (ConnectionRegistry.ofSignal m.connections signal) m

/-- A turn of a connection that a signal has when it is fired: the connection is the one that it was, and
the callback that it had then is run if it is still connected and enabled. What is connected meanwhile
comes after all of these.
-/
def Turn.Due (turn : Turn) (signal : String) (m : Machine) : Prop :=
  ConnectionRegistry.Grows m.connections turn.now.connections
    ∧ ∃ connection guard now,
      m.connections[turn.index]? = some connection ∧ connection.signal = signal
        ∧ connection.callback = some guard
        ∧ turn.now.connections[turn.index]? = some now ∧ now.signal = signal
        ∧ turn.callback? = if now.callback.isSome ∧ now.enabled then some guard.value else none

/-- What firing a signal is, by the turns that its connections have. -/
structure FiresSignal (run : Value → Vm (List Value)) (record : Value → Machine → List Point)
    (signal : String) (m : Machine) (outcome : EStateM.Result (Halt ε) Machine Nat)
    (points : List Point)
    : Prop where
  ascending : ((signalTurns run signal m).map (·.index)).Pairwise (· < ·)
  due : ∀ turn ∈ signalTurns run signal m, turn.Due signal m
  /-- All connections that the signal has have a turn, and those that are attempted are counted, unless a
  callback does not end.
  -/
  ends : (∃ after, outcome = .ok ((signalTurns run signal m).countP (·.attempted)) after
      ∧ ∀ index connection, m.connections[index]? = some connection → connection.signal = signal
        → connection.callback.isSome = true → ∃ turn ∈ signalTurns run signal m, turn.index = index)
    ∨ ∃ turn ∈ signalTurns run signal m, ∃ callback after, turn.callback? = some callback
        ∧ run callback turn.now = .error .outOfFuel after ∧ outcome = .error .outOfFuel after
  /-- Nothing is run but the callbacks of those that are attempted, each in its turn. -/
  points : points = (signalTurns run signal m).flatMap (Turn.points record)

theorem mem_ofSignal {registry : ConnectionRegistry} {signal : String}
    : index ∈ registry.ofSignal signal
      ↔ ∃ connection, registry[index]? = some connection ∧ connection.signal = signal
          ∧ connection.callback.isSome = true := by
  unfold ConnectionRegistry.ofSignal
  rw [List.mem_filter, List.mem_range]
  constructor
  · intro ⟨inside, chosen⟩
    rw [Array.getElem?_eq_getElem inside] at chosen ⊢
    obtain ⟨connected, same⟩ := Bool.and_eq_true_iff.mp chosen
    exact ⟨_, rfl, eq_of_beq same, connected⟩
  · intro ⟨connection, found, same, connected⟩
    refine ⟨(Array.getElem?_eq_some_iff.mp found).1, ?_⟩
    rw [found]
    exact Bool.and_eq_true_iff.mpr ⟨connected, beq_of_eq same⟩

theorem pairwise_ofSignal (registry : ConnectionRegistry) (signal : String)
    : (registry.ofSignal signal).Pairwise (· < ·) :=
  List.pairwise_lt_range.filter _

/-- The turns that connections have are those of the first of them. -/
theorem Ends.listed {outcome : EStateM.Result (Halt ε) Machine Nat}
    (ends : Ends run indices m outcome)
    : (turns run indices m).map (·.index) <+: indices := by
  rcases ends with ⟨_, _, all⟩ | ⟨_, _, _, _, _, _, _, first⟩
  · exact ⟨[], (List.append_nil _).trans all⟩
  · exact first

theorem Ends.mapError {ε' : Type} {x : Run ε Nat} (f : ε → ε') (ends : Ends run indices m (x m))
    : Ends run indices m (Run.mapError f x m) := by
  unfold Run.mapError
  rcases ends with ⟨after, counted, all⟩ | ⟨turn, callback, after, member, known, stuck, halted, first⟩
  · rw [counted]
    exact .inl ⟨after, rfl, all⟩
  · rw [halted]
    exact .inr ⟨turn, callback, after, member, known, stuck, rfl, first⟩

section

variable (grows : ∀ callback (now : Machine),
  ConnectionRegistry.Grows now.connections (run callback now).last.connections)

include grows

/-- Connections grow from the beginning of a firing to every turn, by induction over the turns. -/
theorem grows_turns (indices : List Nat) (m : Machine)
    : ∀ turn ∈ turns run indices m, ConnectionRegistry.Grows m.connections turn.now.connections := by
  induction indices generalizing m with
  | nil => exact fun _ member => (List.not_mem_nil member).elim
  | cons index rest ih =>
      have later {after : Machine} {ran : Bool} (fired : fire run index m = .ok ran after)
          (first : ConnectionRegistry.Grows m.connections after.connections)
          : ∀ turn ∈ turns run (index :: rest) m,
              ConnectionRegistry.Grows m.connections turn.now.connections := by
        intro turn member
        rw [turns_of_ok fired] at member
        rcases List.mem_cons.mp member with rfl | member
        · exact .refl _
        · exact first.trans (ih after turn member)
      rcases fire_cases run index m with ⟨-, fired⟩ | ⟨callback, -, fired | ⟨after, -, fired⟩⟩
      · exact later fired (.refl _)
      · exact later fired (grows callback m)
      · intro turn member
        rw [turns, fired] at member
        cases List.mem_singleton.mp member
        exact .refl _

/-- Every turn is one of a connection that the signal had at the beginning. -/
theorem due_of_mem {signal : String} {turn : Turn} (member : turn ∈ signalTurns run signal m)
    : turn.Due signal m := by
  have grown := grows_turns grows _ m turn member
  have listed := (fireAll_ends run _ m).listed.subset (List.mem_map_of_mem member)
  obtain ⟨connection, found, same, connected⟩ := mem_ofSignal.mp listed
  obtain ⟨guard, holds⟩ := Option.isSome_iff_exists.mp connected
  obtain ⟨now, there, signal, callback⟩ := grown _ connection found
  refine ⟨grown, connection, guard, now, found, same, holds, there, signal.trans same, ?_⟩
  unfold Turn.callback? ConnectionRegistry.callback?
  rw [there]
  rcases callback with kept | gone
  · simp [kept, holds]
  · simp [gone]

theorem FiresSignal.of_ends {record : Value → Machine → List Point} {signal : String}
    {points : List Point}
    {outcome : EStateM.Result (Halt ε) Machine Nat}
    (ends : Ends run (ConnectionRegistry.ofSignal m.connections signal) m outcome)
    (told : points = (signalTurns run signal m).flatMap (Turn.points record))
    : FiresSignal run record signal m outcome points where
  ascending := (pairwise_ofSignal _ signal).sublist ends.listed.sublist
  due _ := due_of_mem grows
  ends := by
    rcases ends with ⟨after, counted, all⟩ | ⟨turn, callback, after, member, known, stuck, halted, -⟩
    · refine .inl ⟨after, counted, fun index connection found same connected => ?_⟩
      have listed := mem_ofSignal.mpr ⟨connection, found, same, connected⟩
      rw [← all] at listed
      exact List.mem_map.mp listed
    · exact .inr ⟨turn, member, callback, after, known, stuck, halted⟩
  points := told

end

end Connection

theorem Machine.grows_enter (fuel : Nat) (f : Value) (arguments : List Value) (m : Machine)
    : ConnectionRegistry.Grows m.connections
        (Vm.callFromHost (Vm.call fuel) f arguments m).last.connections := by
  have left := (Vm.near_leave (Vm.call fuel f arguments none 0) m).calm.connections
  unfold Vm.callFromHost
  rw [left]
  exact m.enter.grows_call fuel ⟨f, arguments, none, 0⟩

/-- Whatever callbacks do, firing a signal attempts in ascending order, each once, those connections that
the signal has when the firing begins and that are still connected and enabled when their turn comes,
and counts them; both from within a call, at any depth, and from the host.
-/
theorem Machine.firesSignal_in_turn (m : Machine) (signal : String) (arguments : List Value) (fuel : Nat)
    : (∀ caller depth,
        Connection.FiresSignal (Vm.call fuel · arguments caller depth)
          (fun callback => callTrace fuel ⟨callback, arguments, caller, depth⟩) signal m
          (Connection.fireSignal (Vm.call fuel · arguments caller depth) signal m)
          ((Plan.fireSignal arguments caller depth signal m).trace (Vm.call fuel) (callTrace fuel)
            (Request.trace (Vm.call fuel) (callTrace fuel))))
      ∧ Connection.FiresSignal (Vm.callFromHost (Vm.call fuel) · arguments)
          (Connection.entryPoints (Vm.call fuel) (callTrace fuel) arguments) signal m
          (serve (Vm.call fuel) (.fireSignal signal arguments) m)
          (((Request.fireSignal signal arguments).errand m).trace (Vm.call fuel) (callTrace fuel)) := by
  constructor
  · intro caller depth
    have grows (callback : Value) (now : Machine) :=
      now.grows_call fuel ⟨callback, arguments, caller, depth⟩
    exact Connection.FiresSignal.of_ends grows (Connection.fireAll_ends _ _ m)
      (Connection.trace_fireAll arguments caller depth _ m)
  · have ends := Connection.fireAll_ends (Vm.callFromHost (Vm.call fuel) · arguments)
      (ConnectionRegistry.ofSignal m.connections signal) m
    refine Connection.FiresSignal.of_ends (fun callback now => now.grows_enter fuel callback arguments)
      (ends.mapError Failure.fault) ?_
    refine (Connection.trace_fireAll_errand arguments _ _ m).trans ?_
    cases Connection.fireAll (Vm.callFromHost (Vm.call fuel) · arguments)
        (ConnectionRegistry.ofSignal m.connections signal) m <;>
      exact List.append_nil _

end HookMachine
