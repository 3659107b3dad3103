import HookMachine.Proofs.Deeds.Levels

/-!
Contexts without the privilege. Code that runs in such a context, with no function of the host in reach
and without setting a level, leaves prototypes, the protection and metatables of tables and the hooks on
record alone, except that it may take hooks back.
-/

namespace HookMachine

variable {α β : Type} {m after last : Machine}

-----------------------------------------------------------------------------------------
-- Requests are made by functions of the host
-----------------------------------------------------------------------------------------

/-- A quiet course that makes no request has no point but those of its calls, by induction over them. -/
theorem Course.Quiet.mem_trace {asks : Prop} {course : Course α} {invoke : Invoke}
    {record : Invocation → Machine → List Point} {requested : Request → Machine → List Point}
    (quiet : course.Quiet asks m) (unasked : ¬asks) {point : Point}
    (member : point ∈ course.trace invoke record requested)
    : ∃ call now, point ∈ record call now
        ∧ ∀ other ∈ record call now, other ∈ course.trace invoke record requested := by
  induction course generalizing m with
  | ends outcome => simp [Course.trace] at member
  | asks request now next ih => exact absurd quiet.1 unasked
  | calls call now next ih =>
      unfold Course.trace at member ⊢
      rcases List.mem_append.mp member with inside | later
      · exact ⟨call, now, inside, fun other within => List.mem_append_left _ within⟩
      · generalize Run.attempt (call.run invoke) now = outcome at later ⊢
        cases outcome with
        | error halt after => simp [EStateM.Result.sequel] at later
        | ok results after =>
            obtain ⟨call, now, inside, among⟩ := ih results after (quiet.2 results after) later
            exact ⟨call, now, inside, fun other within =>
              List.mem_append_right _ (among other within)⟩

theorem Course.Keeps.mem_trace {asks : Prop} {s : Scope} {course : Course α} {invoke : Invoke}
    {record : Invocation → Machine → List Point} {requested : Request → Machine → List Point}
    (keeps : course.Keeps asks s m) (unasked : ¬asks) {point : Point}
    (member : point ∈ course.trace invoke record requested)
    : ∃ call now, point ∈ record call now
        ∧ ∀ other ∈ record call now, other ∈ course.trace invoke record requested := by
  cases course with
  | ends outcome => simp [Course.trace] at member
  | asks request now next => exact absurd keeps.1 unasked
  | calls call now next =>
      have quiet : (Course.calls call now next).Quiet asks now := ⟨.refl now, keeps.2⟩
      exact quiet.mem_trace unasked member

/-- A request among some points is made by a function of the host that runs at one of them. -/
def Attributed (points : List Point) : Prop :=
  ∀ point ∈ points, ∀ request, point.mark = .asks request → ∃ host ∈ points, host.Hosts

namespace Attributed

theorem mono_append {points more : List Point} (first : Attributed points)
    (second : Attributed more)
    : Attributed (points ++ more) := by
  intro point member request asked
  rcases List.mem_append.mp member with member | member
  · obtain ⟨host, within, hosts⟩ := first point member request asked
    exact ⟨host, List.mem_append_left _ within, hosts⟩
  · obtain ⟨host, within, hosts⟩ := second point member request asked
    exact ⟨host, List.mem_append_right _ within, hosts⟩

theorem of_failures (outcome : EStateM.Result (Halt Fault) Machine α)
    : Attributed (failures outcome) := by
  intro point member request asked
  unfold failures at member
  split at member
  · cases List.mem_singleton.mp member
    cases asked
  · cases member

/-- What begins at a point makes a request only if a function of the host runs there. -/
theorem of_begins {course : Course α} {point : Point} {invoke : Invoke}
    {record : Invocation → Machine → List Point} {requested : Request → Machine → List Point}
    (calls : ∀ call now, Attributed (record call now)) (begins : point.Begins course)
    (unasked : ∀ request, point.mark ≠ .asks request)
    : Attributed (point :: course.trace invoke record requested) := by
  intro other member request asked
  by_cases hosts : point.Hosts
  · exact ⟨point, List.mem_cons_self .., hosts⟩
  · obtain ⟨outset, -, keeps⟩ := begins.keeps
    rcases List.mem_cons.mp member with rfl | later
    · exact absurd asked (unasked request)
    · obtain ⟨call, now, inside, among⟩ := keeps.mem_trace hosts later
      obtain ⟨host, within, hosts⟩ := calls call now other inside request asked
      exact ⟨host, List.mem_cons_of_mem _ (among host within), hosts⟩

theorem nil : Attributed [] :=
  fun _ member => absurd member List.not_mem_nil

theorem of_stack {invoke : Invoke} {record : Invocation → Machine → List Point}
    (calls : ∀ call now, Attributed (record call now)) (fuel : Nat) (top : Layer)
    (callers : List Layer) (m : Machine)
    : Attributed (stackTrace invoke record fuel top callers m) := by
  induction fuel generalizing top callers m with
  | zero => exact nil
  | succ fuel ih =>
      unfold stackTrace
      rcases Vm.fetch top.frame m with ⟨i, charged⟩ | ⟨halt, failed⟩
      · refine mono_append
          (of_begins calls (Plan.advance_begins top callers i charged) fun _ => Mark.noConfusion) ?_
        rcases (Plan.advance top callers i).run invoke charged with
          ⟨results | ⟨top, callers⟩, after⟩ | ⟨halt, after⟩
        · exact nil
        · exact ih top callers after
        · exact nil
      · exact nil

theorem of_call (fuel : Nat) (call : Invocation) (m : Machine)
    : Attributed (callTrace fuel call m) := by
  induction fuel generalizing call m with
  | zero => exact nil
  | succ fuel ih =>
      unfold callTrace
      refine mono_append (mono_append ?_ ?_) (of_failures _)
      · exact of_begins ih (Plan.start_begins call m) fun _ => Mark.noConfusion
      · rcases (Plan.start call).run (Vm.call fuel) m with
          ⟨results | frame, after⟩ | ⟨halt, after⟩
        · exact nil
        · exact of_stack ih fuel ⟨frame, .forward⟩ [] after
        · exact nil

end Attributed

-----------------------------------------------------------------------------------------
-- What is left as it was
-----------------------------------------------------------------------------------------

/-- What a run without the privilege leaves as it was: hooks may be gone, none is added or replaced. -/
structure Machine.Confines (m after : Machine) : Prop where
  fixed : m.Fixed after
  prototypes : after.prototypes = m.prototypes
  tables : ∀ (ref : TableRef) (t : Table), m.heap.tables.get ref.handle = .ok t
    → ∃ now, after.heap.tables.get ref.handle = .ok now ∧ now.readOnly = t.readOnly
      ∧ now.metatable = t.metatable
  functions : after.hooks.functions.Sublist m.hooks.functions
  metamethods : after.hooks.metamethods.Sublist m.hooks.metamethods
  levels : ∀ context, after.identities.level context = m.identities.level context

/-- A scope without the deeds that require the privilege. -/
structure Scope.Modest (s : Scope) : Prop where
  shield : ∀ ref on, ¬s.allows (.shield ref on)
  attach : ∀ ref, ¬s.allows (.attach ref)
  hook : ¬s.allows .hook
  program : ¬s.allows .program

namespace Machine.Confines

variable {middle : Machine}

theorem refl (m : Machine) : m.Confines m :=
  ⟨⟨rfl, rfl, rfl, rfl, rfl⟩, rfl, fun _ t found => ⟨t, found, rfl, rfl⟩, .refl _, .refl _,
    fun _ => rfl⟩

theorem live (confines : m.Confines after) {ref : TableRef}
    (there : m.heap.isLive (.table ref) = true)
    : after.heap.isLive (.table ref) = true := by
  obtain ⟨t, found⟩ := Arena.contains_iff.mp there
  obtain ⟨now, held, -⟩ := confines.tables ref t found
  exact Arena.contains_iff.mpr ⟨now, held⟩

/-- Who lacks the privilege does not come by it. -/
theorem unprivileged (confines : m.Confines after) (missing : ¬m.Privileged)
    : ¬after.Privileged := by
  unfold Privileged at missing ⊢
  rw [confines.fixed.config, confines.fixed.context, confines.levels]
  exact missing

/-- Entering shows in nothing that is confined. -/
theorem of_enter (confines : m.enter.Confines after) : m.Confines after :=
  ⟨⟨confines.fixed.heap, confines.fixed.globals, confines.fixed.config, confines.fixed.context,
    confines.fixed.alive⟩, confines.prototypes, confines.tables, confines.functions,
    confines.metamethods, confines.levels⟩

theorem of_beside (confines : m.Confines middle) (beside : middle.Beside after) : m.Confines after where
  fixed := confines.fixed.trans
    ⟨beside.heap, beside.globals, beside.config, beside.context, beside.alive⟩
  prototypes := beside.prototypes.trans confines.prototypes
  tables ref t found := by
    rw [beside.tables]
    exact confines.tables ref t found
  functions := beside.hooks ▸ confines.functions
  metamethods := beside.hooks ▸ confines.metamethods
  levels context := beside.identities ▸ confines.levels context

end Machine.Confines

/-- What a modest scope allows leaves all that was there before the scope as it was. -/
theorem Scope.Change.confines {s : Scope} {middle : Machine} (change : s.Change middle after)
    (modest : s.Modest) (before : m.Confines s.origin) (confines : m.Confines middle)
    : m.Confines after where
  fixed := confines.fixed.trans change.fixed
  prototypes := by
    refine Eq.trans ?_ confines.prototypes
    cases change with
    | beside beside => exact beside.prototypes
    | programmed allowed => exact absurd allowed modest.program
    | _ => rfl
  tables ref t found := by
    obtain ⟨was, held, readOnly, metatable⟩ := confines.tables ref t found
    have there := before.live (Arena.contains_iff.mpr ⟨t, found⟩)
    obtain ⟨now, held, turns⟩ := change.turns held there
    refine ⟨now, held, (turns.readOnly.resolve_right ?_).trans readOnly,
      (turns.metatable.resolve_right ?_).trans metatable⟩
    · exact modest.shield ref _
    · exact modest.attach ref
  functions := by
    refine List.Sublist.trans ?_ confines.functions
    cases change with
    | beside beside => exact beside.hooks ▸ .refl _
    | unhooked functions => exact functions
    | hooked allowed => exact absurd allowed modest.hook
    | _ => exact .refl _
  metamethods := by
    refine List.Sublist.trans ?_ confines.metamethods
    cases change with
    | beside beside => exact beside.hooks ▸ .refl _
    | unhooked _ metamethods => exact metamethods
    | hooked allowed => exact absurd allowed modest.hook
    | _ => exact .refl _
  levels context := (change.level context).trans (confines.levels context)

theorem Scope.Leads.confines {s : Scope} {middle : Machine} (leads : s.Leads middle after)
    (modest : s.Modest) (before : m.Confines s.origin) (confines : m.Confines middle)
    : m.Confines after := by
  induction leads with
  | refl => exact confines
  | tail _ change ih => exact change.confines modest before ih

-----------------------------------------------------------------------------------------
-- Runs without the privilege
-----------------------------------------------------------------------------------------

/-- Nothing but functions of scripts and closures runs at a point, and no level is set. -/
structure Point.Scripted (point : Point) : Prop where
  unhosted : ¬point.Hosts
  unset : ∀ level, ¬point.Sets level

/-- Where no request is made, a context without the privilege is granted none of its deeds. -/
theorem Point.modest {point : Point} (missing : ¬point.machine.Privileged)
    (unasked : ∀ request, point.mark ≠ .asks request)
    : point.scope.Modest := by
  have only {deed : Deed} (grants : point.Grants deed) (other : ∀ ref, deed ≠ .write ref)
      : ∃ f arguments, ScriptFunction.Grants point.machine arguments f deed := by
    cases grants with
    | performs _ grants => exact ⟨_, _, grants⟩
    | asks asked => exact absurd asked (unasked _)
    | stores _ _ _ writes | enters _ writes => exact absurd writes (other _)
  constructor
  · rintro ref on grants
    obtain ⟨f, arguments, grants⟩ := only grants nofun
    cases grants <;> contradiction
  · rintro ref grants
    obtain ⟨f, arguments, grants⟩ := only grants nofun
    cases grants
    contradiction
  · rintro grants
    obtain ⟨f, arguments, grants⟩ := only grants nofun
    cases grants <;> contradiction
  · rintro grants
    obtain ⟨f, arguments, grants⟩ := only grants nofun
    cases grants
    contradiction

/-- A point at which no request is made and no level is set leaves confined what was. -/
theorem Point.Moves.confines {point : Point} (moves : point.Moves after)
    (unset : ∀ level, ¬point.Sets level) (unasked : ∀ request, point.mark ≠ .asks request)
    (missing : ¬m.Privileged) (confines : m.Confines point.machine)
    : m.Confines after := by
  rcases moves with ⟨⟨outset, set, leads⟩, -⟩ | ⟨asked, -⟩
  · cases set with
    | plain =>
        exact leads.confines (modest (confines.unprivileged missing) unasked) confines confines
    | set sets => exact absurd sets (unset _)
  · exact absurd asked (unasked _)

/-- A call in a context without the privilege, with functions of scripts alone, is confined at every
point, by induction over the points before, and in the end.
-/
theorem Machine.confines_call (missing : ¬m.Privileged) (fuel : Nat) (call : Invocation)
    (scripted : ∀ point ∈ callTrace fuel call m, point.Scripted)
    : (∀ point ∈ callTrace fuel call m, m.Confines point.machine)
      ∧ m.Confines (call.run (Vm.call fuel) m).last := by
  have unasked : ∀ point ∈ callTrace fuel call m, ∀ request, point.mark ≠ .asks request := by
    intro point member request asked
    obtain ⟨host, within, hosts⟩ := Attributed.of_call fuel call m point member request asked
    exact (scripted host within).unhosted hosts
  let quiet (point : Point) : Prop :=
    (∀ level, ¬point.Sets level) ∧ ∀ request, point.mark ≠ .asks request
  have begins : quiet ⟨.left, m⟩ := ⟨Point.not_sets_of_still rfl, fun _ => nofun⟩
  have quiets : ∀ point ∈ [] ++ ⟨.left, m⟩ :: callTrace fuel call m, quiet point := by
    intro point member
    rcases List.mem_cons.mp member with rfl | member
    · exact begins
    · exact ⟨(scripted point member).unset, unasked point member⟩
  let P (log : List Point) (now : Machine) : Prop := (∀ point ∈ log, quiet point) → m.Confines now
  have step (log : List Point) (point : Point) (after : Machine) (held : P log point.machine)
      (moves : point.Moves after) (_ : point.Opened log after)
      : P (log ++ [point]) after := by
    intro calm
    obtain ⟨unset, unasked⟩ := calm point (by simp)
    exact moves.confines unset unasked missing (held fun other member => calm other (by simp [member]))
  have linked := (stretch_call fuel call m).linked ⟨.left, m⟩ (.refl rfl)
  have opened {points : List Point} {last : Machine}
      : Point.Opened [] ⟨.left, m⟩ (reached points last) :=
    Point.opened_of_ne (by nofun) _
  constructor
  · intro here member
    obtain ⟨earlier, later, split⟩ := List.append_of_mem member
    rw [split] at linked quiets
    have kept := linked.holds_at (P := P) step [] (fun _ => .refl m) opened
    refine kept fun point within => ?_
    have among : point ∈ ⟨.left, m⟩ :: (earlier ++ here :: later) :=
      (List.cons_subset_cons _ (List.subset_append_left _ _)) within
    exact quiets point among
  · exact linked.holds_last (P := P) step [] (fun _ => .refl m) opened quiets

-----------------------------------------------------------------------------------------
-- Functions that are gated
-----------------------------------------------------------------------------------------

/-- The functions of scripts that require the privilege. -/
def ScriptFunction.gated : ScriptFunction → Bool
  | .installHook | .installMetamethodHook | .setProtected | .makeReadonly | .makeWriteable
  | .setRawMetatable | .setConstant => true
  | _ => false

/-- How a function of scripts fails for who lacks the privilege. -/
def Machine.denial (m : Machine) (f : ScriptFunction) : Fault :=
  .refused (.denied f.name m.config.privilegedLevel (m.identities.level m.context))

/-- A gated function fails, whatever it is given, and nothing is done but to look at the level. -/
structure Machine.Denies (m : Machine) : Prop where
  text {f required level} (needs : m.config.privilegedLevel = required)
    (holds : m.identities.level m.context = level)
    : (m.denial f).reason = s!"{f.name} requires identity level {required}, caller has {level}"
  native {f n ref invoke arguments caller depth} (gated : ScriptFunction.gated f = true)
    (found : m.heap.natives.get ref.handle = .ok n) (runs : n.body = .script f)
    : Vm.callNative invoke ref arguments caller depth m = .error (.failed (m.denial f)) m.observed
  call {f n call fuel} (gated : ScriptFunction.gated f = true)
    (reaches : m.Reaches (Invocation.f call) n) (runs : n.body = .script f)
    (within : call.depth ≤ m.config.limits.callDepth)
    : call.run (Vm.call (fuel + 1)) m = .error (.failed (m.denial f)) m.observed
      ∧ callTrace (fuel + 1) call m = [⟨.called call, m⟩, ⟨.failed (m.denial f), m.observed⟩]

theorem Script.run_denied {f : ScriptFunction} (gated : f.gated = true) (missing : ¬m.Privileged)
    (nested : Nested) (caller : Option ClosureRef) (arguments : List Value)
    : (run nested caller f arguments).toVm m = .error (.failed (m.denial f)) m.observed := by
  have denied : run nested caller f arguments m
      = .error (.failed (.refused (.denied f.name m.config.privilegedLevel
          (m.identities.level m.context)))) m.observed := by
    have denied := Clearance.requirePrivilege_of_not f.name missing
    cases f with
    | installHook | installMetamethodHook | setProtected | makeReadonly | makeWriteable
    | setRawMetatable | setConstant => exact Run.bind_error denied
    | _ => cases gated
  unfold Action.toVm Run.mapError
  rw [denied]
  rfl

/-- A call that comes down to a gated function ends where it begins. -/
theorem Plan.start_denied {call : Invocation} {f : ScriptFunction} {n : Native}
    (gated : f.gated = true) (alive : m.alive = true) (missing : ¬m.Privileged)
    (reaches : m.Reaches call.f n) (runs : n.body = .script f)
    (within : call.depth ≤ m.config.limits.callDepth)
    : start call m = .ends (.error (.failed (m.denial f)) m.observed) := by
  have quiet : f ≠ .fireSignal := by
    rintro rfl
    cases gated
  rw [start_of_performs ⟨alive, n, runs, within, reaches, rfl⟩, script_of_quiet quiet]
  have denied := Script.run_denied gated missing Plan.noCall call.caller call.arguments
  change Course.bind (.ends ((Script.run Plan.noCall call.caller f call.arguments).toVm m)) _ = _
  rw [denied]
  rfl

/-- Without the privilege a runtime that is alive denies every gated function. -/
theorem Machine.denies (alive : m.alive = true) (missing : ¬m.Privileged) : m.Denies := by
  refine ⟨?_, ?_, ?_⟩
  · rintro f required level rfl rfl
    rfl
  · intro f n ref invoke arguments caller depth gated found runs
    refine (Run.bind_ok (Vm.native_of_get found)).trans ?_
    rw [runs]
    refine (Run.bind_get ..).trans ?_
    rw [if_pos alive]
    exact Script.run_denied gated missing ..
  · intro f n call fuel gated reaches runs within
    have begins := Plan.start_denied gated alive missing reaches runs within
    have fails : call.run (Vm.call (fuel + 1)) m = .error (.failed (m.denial f)) m.observed := by
      rw [Plan.call_eq]
      refine Run.bind_error ?_
      unfold Plan.run
      rw [begins]
      rfl
    refine ⟨fails, ?_⟩
    unfold callTrace
    rw [fails]
    unfold Plan.run
    rw [begins]
    rfl

-----------------------------------------------------------------------------------------
-- Contexts
-----------------------------------------------------------------------------------------

/-- A call comes down to one native at most. -/
theorem Machine.Reaches.unique {f : Value} {n other : Native} (first : m.Reaches f n)
    (second : m.Reaches f other)
    : n = other := by
  obtain ⟨ref, after, resolved, found⟩ := first
  obtain ⟨ref', after', resolved', found'⟩ := second
  cases resolved.symm.trans resolved'
  exact Except.ok.inj (found.symm.trans found')

theorem Point.not_hosts_of_still {point : Point} (still : point.mark.still = true)
    : ¬point.Hosts := by
  rintro ⟨n, f, arguments, -, passes⟩
  exact not_passes_of_still still n arguments passes

/-- A call that comes down to a function of scripts is scripted, unless that sets a level. -/
theorem Point.scripted_of_reaches {call : Invocation} {n : Native} {f : ScriptFunction}
    (reaches : m.Reaches call.f n) (runs : n.body = .script f) (aside : f ≠ .setIdentity)
    : Point.Scripted ⟨.called call, m⟩ where
  unhosted := by
    rintro ⟨other, host, arguments, hosts, passes⟩
    cases passes.2.1.unique reaches
    cases hosts.symm.trans runs
  unset level sets := by
    cases sets with
    | performs performs =>
        obtain ⟨-, other, sets, passes⟩ := performs
        cases passes.2.1.unique reaches
        cases sets.symm.trans runs
        exact aside rfl
    | asks asked => cases asked

/-- What a native is given at a point is told by the point. -/
theorem Point.Passes.unique {point : Point} {n n' : Native} {arguments arguments' : List Value}
    (first : point.Passes n arguments) (second : point.Passes n' arguments')
    : arguments = arguments' := by
  unfold Passes at first second
  cases mark : point.mark with
  | called call =>
      rw [mark] at first second
      exact first.2.2.symm.trans second.2.2
  | executes frame i =>
      rw [mark] at first second
      exact first.2.2.2.symm.trans second.2.2.2
  | _ =>
      rw [mark] at first
      exact first.elim

/-- A point sets one level at most. -/
theorem Point.Sets.unique {point : Point} {level other : Int} (first : point.Sets level)
    (second : point.Sets other)
    : level = other := by
  have apart {request : Request} {f : ScriptFunction} {arguments : List Value}
      (asked : point.mark = .asks request) (performs : point.Performs f arguments)
      : level = other := by
    obtain ⟨-, n, -, passes⟩ := performs
    unfold Passes at passes
    rw [asked] at passes
    exact passes.elim
  cases first with
  | performs performs given =>
      cases second with
      | performs performs' given' =>
          obtain ⟨-, n, -, passes⟩ := performs
          obtain ⟨-, n', -, passes'⟩ := performs'
          cases passes.unique passes'
          cases given.symm.trans given'
          rfl
      | asks asked => exact apart asked performs
  | asks asked =>
      cases second with
      | performs performs => exact apart asked performs
      | asks asked' =>
          cases asked.symm.trans asked'
          rfl

/-- A log tells which levels a context was given, by induction over it. -/
theorem Settings.unique {context : ContextRef} {log : List Point} {levels others : List Int}
    (first : Settings context log levels) (second : Settings context log others)
    : levels = others := by
  induction first generalizing others with
  | nil =>
      generalize same : ([] : List Point) = log at second
      cases second with
      | nil => rfl
      | set | other => simp at same
  | @set log levels point level before own sets ih =>
      generalize same : log ++ [point] = whole at second
      cases second with
      | nil => simp at same
      | set before' _ sets' =>
          obtain ⟨rfl, rfl⟩ := List.append_singleton_inj.mp same
          rw [ih before', sets.unique sets']
      | other before' aside =>
          obtain ⟨rfl, rfl⟩ := List.append_singleton_inj.mp same
          exact absurd sets (aside own level)
  | @other log levels point before aside ih =>
      generalize same : log ++ [point] = whole at second
      cases second with
      | nil => simp at same
      | @set _ _ _ level before' own sets =>
          obtain ⟨rfl, rfl⟩ := List.append_singleton_inj.mp same
          exact absurd sets (aside own level)
      | other before' =>
          obtain ⟨rfl, -⟩ := List.append_singleton_inj.mp same
          exact ih before'

/-- The level that a context observes is the last of those that its own operations have set, or
else the default, and in range.
-/
def Machine.Observes (config : Config) (log : List Point) (m : Machine) (context : ContextRef) : Prop :=
  ∃ levels, Settings context log levels
    ∧ (∀ others, Settings context log others → others = levels)
    ∧ config.levelAfter levels ≤ maxLevel
    ∧ Clearance.level { m with context }
      = .ok (config.levelAfter levels) (observed { m with context })

theorem Machine.Leveled.observes {config : Config} {log : List Point}
    (leveled : m.Leveled config log) (context : ContextRef)
    : m.Observes config log context := by
  obtain ⟨levels, settings, held⟩ := leveled.level context
  refine ⟨levels, settings, fun _ other => other.unique settings, settings.levelAfter_le, ?_⟩
  rw [← held]
  rfl

theorem Point.Moves.alive {point : Point} (moves : point.Moves m)
    : m.alive = point.machine.alive := by
  rcases moves with ⟨⟨outset, set, leads⟩, -⟩ | ⟨-, rfl⟩
  · refine leads.fixed.alive.trans ?_
    cases set <;> rfl
  · unfold Machine.collect
    split <;> rfl

namespace Machine.Interleaved

variable {config : Config} {log : List Point}

/-- A runtime is alive as long as no session drops it. -/
theorem alive (life : Interleaved config log m) : m.alive = true := by
  refine life.holds (P := fun _ now => now.alive = true) (fun heap => ?_) (fun _ _ held => held)
    fun _ _ _ held moves _ => moves.alive.trans held
  exact (leads_create heap config).fixed.alive

/-- However the operations of contexts are interleaved, each context observes the level that it
has set itself, or the default. A call in a context without the privilege leaves what the
privilege is for as it was, at every point and in the end, and is denied the functions that would
change it.
-/
theorem confined (life : Interleaved config log m) (context : ContextRef)
    (prototypes : PrototypeStore)
    : (∀ earlier here later, log = earlier ++ here :: later
        → here.machine.Observes config earlier context)
      ∧ m.Observes config log context
      ∧ ∀ (levels : List Int) (start : Machine) (fuel : Nat) (call : Invocation),
          Settings context log levels → config.levelAfter levels < config.privilegedLevel
          → start = { m with context, prototypes }
          → (∀ point ∈ callTrace fuel call start.enter, point.Scripted)
          → (∀ point ∈ callTrace fuel call start.enter,
              start.Confines point.machine ∧ point.machine.Denies)
            ∧ start.Confines (Vm.enter (call.run (Vm.call fuel)) start).last := by
  have leveled := life.leveled
  refine ⟨fun earlier here later split => ?_, leveled.observes context, ?_⟩
  · exact (life.leveled_at split).observes context
  · intro levels start fuel call settings below same scripted
    subst same
    have missing : ¬Privileged { m with context, prototypes } := by
      obtain ⟨others, given, held⟩ := leveled.level context
      cases given.unique settings
      unfold Privileged
      rw [leveled.same, held]
      exact Nat.not_le.mpr below
    have entered : ¬(enter { m with context, prototypes }).Privileged := missing
    obtain ⟨points, ends⟩ := confines_call entered fuel call scripted
    refine ⟨fun point member => ?_, ?_⟩
    · have confined := (points point member).of_enter
      exact ⟨confined, denies (confined.fixed.alive.trans life.alive) (confined.unprivileged missing)⟩
    · refine ends.of_enter.of_beside ?_
      unfold Vm.enter
      generalize call.run (Vm.call fuel) _ = outcome
      cases outcome <;> exact ⟨rfl, rfl, rfl, rfl, rfl, rfl, rfl, rfl, rfl, rfl, .refl _⟩

/-- A context below the privileged level, in a new runtime, tries to protect the root globals. -/
theorem confined_denied
    : ∃ (config : Config) (m start : Machine) (call : Invocation),
        Interleaved config [] m ∧ start = { m with context := ⟨1⟩ }
          ∧ (∀ point ∈ callTrace 1 call start.enter, point.Scripted)
          ∧ call.arguments = [.table m.globals, .boolean true]
          ∧ m.Observes config [] ⟨1⟩
          ∧ (∀ point ∈ callTrace 1 call start.enter,
              start.Confines point.machine ∧ point.machine.Denies)
          ∧ start.Confines (Vm.enter (call.run (Vm.call 1)) start).last := by
  let config : Config := { defaultLevel := 0 }
  let ref : NativeRef := ⟨⟨1, 8, 0⟩⟩
  have made : (match (create 1 config).heap.natives.get ref.handle with
      | .ok ⟨_, .script f, _, _⟩ => decide (f = .setProtected)
      | _ => false) = true := by decide +kernel
  have begins : Interleaved config [] (create 1 config) := .starts 1
  have leveled := begins.leveled
  have alive := begins.alive
  generalize create 1 config = m at made begins leveled alive
  obtain ⟨n, found, runs⟩ : ∃ n, m.heap.natives.get ref.handle = .ok n
      ∧ n.body = .script .setProtected := by
    split at made
    · rename_i f _ _ found
      obtain rfl := of_decide_eq_true made
      exact ⟨_, found, rfl⟩
    · cases made
  let start : Machine := { m with context := ⟨1⟩ }
  let call : Invocation := ⟨.native ref, [.table m.globals, .boolean true], none, 0⟩
  have stays : start.enter.Stays (.native ref) := trivial
  have resolved : Vm.resolve (.native ref) start.enter = .ok (.native ref) start.enter :=
    (Vm.resolve_eq ..).trans (Vm.followRedirects_of_stays stays _)
  have reaches : start.enter.Reaches call.f n := ⟨ref, start.enter, resolved, found⟩
  have unset : Settings ⟨1⟩ [] [] := .nil
  have below : config.levelAfter [] < config.privilegedLevel := by decide
  have missing : ¬start.enter.Privileged := by
    obtain ⟨others, given, held⟩ := leveled.level ⟨1⟩
    cases given.unique unset
    change ¬m.config.privilegedLevel ≤ m.identities.level ⟨1⟩
    rw [leveled.same, held]
    exact Nat.not_le.mpr below
  have denied : start.enter.Denies := denies alive missing
  have points : callTrace 1 call start.enter = _ :=
    (denied.call rfl reaches runs (Nat.zero_le _)).2
  have scripted : ∀ point ∈ callTrace 1 call start.enter, point.Scripted := by
    intro point member
    rw [points] at member
    rcases List.mem_pair.mp member with rfl | rfl
    · exact Point.scripted_of_reaches reaches runs nofun
    · exact ⟨Point.not_hosts_of_still rfl, Point.not_sets_of_still rfl⟩
  obtain ⟨-, observes, confined⟩ := begins.confined ⟨1⟩ m.prototypes
  obtain ⟨inside, ends⟩ := confined [] start 1 call unset below rfl scripted
  exact ⟨config, m, start, call, begins, rfl, scripted, rfl, observes, inside, ends⟩

end Machine.Interleaved

end HookMachine
