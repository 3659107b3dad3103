import HookMachine.Proofs.Connections.Wiring

/-!
Connections from point to point. What is done to them at a point is told by the point alone: by the
native that is called there, or by the request that is made.
-/

namespace HookMachine

variable {α β : Type} {m after first : Machine}

namespace Plan

variable {caller : Option ClosureRef} {d : Nat} {arguments : List Value}

/-- A function of the script surface that does nothing to connections. -/
theorem script_calm {f : ScriptFunction} (unwired : (NativeBody.script f).wiring? arguments = none)
    (m : Machine)
    : m.Calm (script caller d f arguments m).head := by
  have run (aside : f ≠ .registerConnection) (quiet : f ≠ .fireSignal)
      : (liftM (Script.run noCall caller f arguments).toVm : Plan (List Value)).Follows
          Machine.Calm :=
    .lift (Script.run_calms noCall caller arguments aside quiet).toVm
  cases f with
  | fireSignal =>
      have named
          : (liftM (Script.string arguments 0 "signal name").toVm : Plan String).Follows
              Machine.Calm :=
        .lift (Script.string_follows arguments 0 _).toVm
      have fires (signal : String)
          : (fireSignal (arguments.drop 1) caller d signal >>= fun count =>
              (pure [.ofNat count] : Plan (List Value))).Follows Machine.Calm :=
        .quiet ((fireSignal_quiet _ signal).andThen fun _ => .pure _)
      exact (named.andThen fires).head m
  | registerConnection =>
      have unnamed (signal : String) : Script.argument arguments 0 ≠ .string signal := by
        intro given
        unfold NativeBody.wiring? at unwired
        dsimp only at unwired
        rw [given] at unwired
        cases unwired
      change m.Calm (Run.mapError _ _ m).last
      rw [Run.last_mapError, Script.run_unnamed noCall caller unnamed]
      exact .refl m
  | _ => exact (run (by decide) (by decide)).head m

/-- A native that does nothing to connections, or whose runtime is dropped. -/
theorem body_calm {body : NativeBody} (unwired : m.alive = true → body.wiring? arguments = none)
    : m.Calm (Plan.body arguments caller d body m).head := by
  cases body with
  | script f =>
      refine Course.follow_look .get fun now looked => ?_
      cases looked
      split
      · rename_i alive
        exact script_calm (unwired alive) m
      · exact .refl m
  | method method index owner =>
      refine Course.follow_look .get fun now looked => ?_
      cases looked
      split
      · rename_i alive
        cases method with
        | fire =>
            have fires : (Plan.method caller (d + 1) .fire index owner arguments).Quiet False :=
              (fire_quiet _ index).andThen fun _ => .pure _
            exact (fires.course m).head.calm
        | _ => cases unwired alive
      · exact .refl m
  | wrapper inner =>
      have calls : (Plan.call inner arguments caller (d + 1)).Quiet False := .call ..
      exact (calls.course m).head.calm
  | host f => exact ((program_quiet trivial (f caller arguments)).course m).head.calm

/-- What a native of a runtime that is alive does to connections. -/
theorem body_wired (caller : Option ClosureRef) (d : Nat) {body : NativeBody} {w : Wiring}
    (alive : m.alive = true)
    (wires : body.wiring? arguments = some w)
    : (m.wired w).Calm (Plan.body arguments caller d body m).head
      ∧ ∀ index, w = .disconnect index →
          (Plan.body arguments caller d body m).head = m.wired w := by
  cases body with
  | script f =>
      cases f with
      | registerConnection =>
          unfold NativeBody.wiring? at wires
          dsimp only at wires
          split at wires
          · rename_i signal given
            cases wires
            have registers : (Plan.body arguments caller d (.script .registerConnection) m).head
                = (Script.run noCall caller .registerConnection arguments m).last := by
              refine (congrArg Course.head (bind_of_ok (x := get) rfl _)).trans ?_
              rw [if_pos alive]
              exact Run.last_mapError ..
            rw [registers]
            exact ⟨Script.run_register noCall caller given m, nofun⟩
          · cases wires
      | _ => cases wires
  | method method index owner =>
      have runs : (Plan.body arguments caller d (.method method index owner) m).head = m.wired w := by
        refine (congrArg Course.head (bind_of_ok (x := get) rfl _)).trans ?_
        rw [if_pos alive]
        cases method <;> cases wires <;> rfl
      rw [runs]
      exact ⟨.refl _, fun _ _ => rfl⟩
  | wrapper | host => cases wires

/-- A call at which a native is called comes to what that comes to. -/
theorem head_start_of_passes {call : Invocation} {n : Native}
    (passes : Point.Passes ⟨.called call, m⟩ n arguments)
    : (start call m).head = (body arguments call.caller call.depth n.body m).head := by
  obtain ⟨within, ⟨ref, after, resolved, found⟩, same⟩ := passes
  obtain rfl : m = after := (Vm.resolve_ok resolved).symm
  subst same
  refine (congrArg Course.head ((bind_of_ok (Vm.checkDepth_of_le within) _).trans
    (bind_of_ok resolved _))).trans ?_
  exact head_return (callOther_of_native found) _

/-- An instruction at which a native is called comes to what that comes to. -/
theorem head_advance_of_passes (top : Layer) (callers : List Layer) {i : Instruction} {n : Native}
    (passes : Point.Passes ⟨.executes top.frame i, m⟩ n arguments)
    : (advance top callers i m).head
      = (body arguments (some top.frame.closure) (top.frame.depth + 1) n.body m).head := by
  obtain ⟨calls, within, ⟨ref, after, resolved, found⟩, same⟩ := passes
  obtain rfl : m = after := (Vm.resolve_ok resolved).symm
  subst same
  obtain ⟨resume, same⟩ := advance_of_call callers calls
  rw [same]
  refine (congrArg Course.head ((bind_of_ok (Vm.checkDepth_of_le within) _).trans
    (bind_of_ok resolved _))).trans ?_
  exact head_return (callOther_of_native found) _

end Plan

-----------------------------------------------------------------------------------------
-- What points do to connections
-----------------------------------------------------------------------------------------

namespace Point

variable {point : Point}

/-- What is done to connections at a point. -/
def wiring? (point : Point) : Option Wiring :=
  point.tells? (fun body arguments => body.wiring? arguments) Request.wiring?

/-- The machine in which that is done. -/
def wired (point : Point) : Machine :=
  match point.wiring? with
  | some w => point.machine.wired w
  | none => point.machine

/-- What a point does to connections is done in the machine that it comes to first. -/
structure Wires (point : Point) (first : Machine) : Prop where
  calm : point.wired.Calm first
  disconnected : ∀ index, point.wiring? = some (.disconnect index) → first = point.wired

theorem Wires.of_calm (unwired : point.wiring? = none) (calm : point.machine.Calm first)
    : point.Wires first := by
  refine ⟨?_, fun index wires => ?_⟩
  · rw [wired, unwired]
    exact calm
  · rw [unwired] at wires
    cases wires

/-- Where a native is called nothing is done to connections but by the native. -/
theorem Wires.of_passes (unasked : ∀ request, point.mark ≠ .asks request) {n : Native}
    {arguments : List Value} (passes : point.Passes n arguments) {caller : Option ClosureRef}
    {d : Nat} (same : first = (Plan.body arguments caller d n.body point.machine).head)
    : point.Wires first := by
  subst same
  have told : point.wiring? = _ := tells?_of_passes unasked passes
  cases wires : point.wiring? with
  | none =>
      refine .of_calm wires (Plan.body_calm fun alive => ?_)
      rw [wires, if_pos alive] at told
      exact told.symm
  | some w =>
      rw [wires] at told
      split at told
      · rename_i alive
        obtain ⟨calm, disconnected⟩ := Plan.body_wired caller d alive told.symm
        have same : point.wired = point.machine.wired w := by
          unfold wired
          rw [wires]
        refine ⟨same ▸ calm, fun index also => ?_⟩
        rw [same]
        cases wires.symm.trans also
        exact disconnected index rfl
      · cases told

/-- Nothing is done to connections at a point but what the point tells. -/
theorem Does.wires (does : point.Does first) (uncollected : point.mark ≠ .asks .collect)
    : point.Wires first := by
  obtain ⟨mark, m⟩ := point
  have still (still : mark.still = true) (unasked : ∀ request, mark ≠ .asks request)
      : Point.wiring? ⟨mark, m⟩ = none :=
    tells?_of_apart unasked fun n arguments => not_passes_of_still still n arguments
  cases mark with
  | called call =>
      cases does
      have unasked (request : Request) : Mark.called call ≠ .asks request := nofun
      by_cases passes : ∃ n arguments, Point.Passes ⟨.called call, m⟩ n arguments
      · obtain ⟨n, arguments, passes⟩ := passes
        exact .of_passes unasked passes (Plan.head_start_of_passes passes)
      · have apart : ∀ n arguments, ¬Point.Passes ⟨.called call, m⟩ n arguments :=
          fun n arguments passed => passes ⟨n, arguments, passed⟩
        exact .of_calm (tells?_of_apart unasked apart) (Plan.start_follows fun n arguments passed => absurd passed (apart n arguments))
  | executes frame i =>
      obtain ⟨resume, callers, rfl⟩ := does
      have unasked (request : Request) : Mark.executes frame i ≠ .asks request := nofun
      by_cases passes : ∃ n arguments, Point.Passes ⟨.executes frame i, m⟩ n arguments
      · obtain ⟨n, arguments, passes⟩ := passes
        have same := Plan.head_advance_of_passes ⟨frame, resume⟩ callers passes
        exact .of_passes unasked passes same
      · have apart : ∀ n arguments, ¬Point.Passes ⟨.executes frame i, m⟩ n arguments :=
          fun n arguments passed => passes ⟨n, arguments, passed⟩
        exact .of_calm (tells?_of_apart unasked apart)
          (Plan.advance_follows ⟨frame, resume⟩ callers (fun _ _ _ => Plan.variables_calms _ _)
            fun n arguments passed => absurd passed (apart n arguments))
  | asks request =>
      cases does
      cases wires : request.wiring? with
      | none =>
          refine .of_calm wires (Request.errand_calm (fun collects => uncollected ?_) wires m)
          rw [collects]
      | some w =>
          have same : (request.errand m).head = Point.wired ⟨.asks request, m⟩ := by
            cases request <;> cases wires <;> rfl
          rw [same]
          exact ⟨.refl _, fun _ _ => rfl⟩
  | entered =>
      refine .of_calm (still rfl fun _ => nofun) ?_
      rcases does with rfl | ⟨object, key, value, rfl⟩
      · exact .refl _
      · exact (Plan.assign_follows object key value).head m
  | failed | answered | left =>
      cases does
      exact .of_calm (still rfl fun _ => nofun) (.refl m)

/-- What is done at a point shows at the next. -/
theorem Moves.does (moves : point.Moves m) : ∃ first, point.Does first ∧ first.Near m := by
  rcases moves with goes | ⟨collects, rfl⟩
  · exact goes.does
  · obtain ⟨mark, now⟩ := point
    cases collects
    exact ⟨now.collect.2, rfl, .refl _⟩

/-- From a point to the next nothing is done to connections but what the point tells. -/
theorem Moves.connections (moves : point.Moves m) : m.connections = point.wired.connections := by
  obtain ⟨first, does, near⟩ := moves.does
  refine near.calm.connections.trans ?_
  by_cases collects : point.mark = .asks .collect
  · obtain ⟨mark, now⟩ := point
    cases collects
    cases does
    change now.collect.2.connections = now.connections
    unfold Machine.collect
    split <;> rfl
  · exact (does.wires collects).calm.connections

/-- Only a collection takes objects away. -/
theorem Moves.live (moves : point.Moves m) (uncollected : point.mark ≠ .asks .collect)
    {object : ObjectRef} (live : point.machine.heap.isLive object = true)
    : m.heap.isLive object = true := by
  obtain ⟨first, does, near⟩ := moves.does
  refine near.calm.live object ((does.wires uncollected).calm.live object ?_)
  unfold wired
  split
  · exact point.machine.live_wired _ live
  · exact live

/-- Where a connection is ended nothing else is done to the machine. -/
theorem Moves.disconnected (moves : point.Moves m) {index : Nat}
    (wires : point.wiring? = some (.disconnect index))
    : (point.machine.wired (.disconnect index)).Near m := by
  obtain ⟨first, does, near⟩ := moves.does
  have uncollected : point.mark ≠ .asks .collect := by
    intro collects
    obtain ⟨mark, now⟩ := point
    cases collects
    cases wires
  have same := (does.wires uncollected).disconnected index wires
  unfold wired at same
  rw [wires] at same
  dsimp only at same
  exact same ▸ near

end Point
end HookMachine
