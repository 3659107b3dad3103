import HookMachine.Proofs.Connections.Firing
import HookMachine.Proofs.Deeds.Permanence

/-!
Connections over the life of a runtime. What was done to them tells how they are: which signal and
callback each index has for good, and whether it is connected and enabled. A connection that has
ended stays so, and a callback that is connected is kept alive.
-/

namespace HookMachine

variable {config : Config} {log : List Point} {m after : Machine} {w : Wiring} {index : Nat}

-----------------------------------------------------------------------------------------
-- What is told of connections
-----------------------------------------------------------------------------------------

/-- How a connection stands. -/
inductive Standing where
  | enabled
  | disabled
  | ended
deriving DecidableEq, Repr

/-- A connection as it is told of. -/
structure Line where
  signal : String
  callback : Value
  standing : Standing := .enabled

namespace Line

/-- What a connection is made of. -/
def made (line : Line) : String × Value :=
  (line.signal, line.callback)

/-- What shows of a connection: its signal, its callback until it ends, and whether it is enabled. -/
def shown (line : Line) : String × Option Value × Bool :=
  (line.signal, if line.standing = .ended then none else some line.callback,
    line.standing = .enabled)

/-- The callback that firing the connection runs. -/
def rings? (line : Line) : Option Value :=
  if line.standing = .enabled then some line.callback else none

/-- The line of a connection after it is enabled or disabled, unless it has ended. -/
def turned (on : Bool) (line : Line) : Line :=
  if line.standing = .ended then line
  else { line with standing := if on then .enabled else .disabled }

/-- The line of a connection after it ends. -/
def ended (line : Line) : Line :=
  { line with standing := .ended }

/-- What may be told of a connection later. -/
structure Lasts (line now : Line) : Prop where
  made : now.made = line.made
  ended : line.standing = .ended → now.standing = .ended

theorem Lasts.refl (line : Line) : line.Lasts line :=
  ⟨rfl, id⟩

theorem Lasts.trans {line middle now : Line} (first : line.Lasts middle) (second : middle.Lasts now)
    : line.Lasts now :=
  ⟨second.made.trans first.made, fun gone => second.ended (first.ended gone)⟩

theorem lasts_turned (line : Line) (on : Bool) : line.Lasts (line.turned on) := by
  unfold turned
  split
  · exact .refl line
  · rename_i goes
    exact ⟨rfl, fun gone => absurd gone goes⟩

end Line

/-- What shows of a connection in the registry. -/
def Connection.shown (connection : Connection) : String × Option Value × Bool :=
  (connection.signal, connection.callback.map (·.value), connection.enabled)

/-- What is told of connections after something is done to them in a machine. -/
def Wiring.revise (m : Machine) (lines : List Line) : Wiring → List Line
  | .register signal callback =>
      if m.accepts callback then lines ++ [{ signal, callback }] else lines
  | .setEnabled index on => lines.modify index (·.turned on)
  | .disconnect index => lines.modify index (·.ended)

namespace Point

/-- What is told of connections after a point. -/
def revise (lines : List Line) (point : Point) : List Line :=
  match point.wiring? with
  | some w => w.revise point.machine lines
  | none => lines

/-- The connection that is made at a point. -/
def makes? (point : Point) : Option (String × Value) :=
  match point.wiring? with
  | some (.register signal callback) =>
      if point.machine.accepts callback then some (signal, callback) else none
  | _ => none

end Point

/-- What the points of a log tell of connections. -/
def told (log : List Point) : List Line :=
  log.foldl Point.revise []

theorem told_concat (log : List Point) (point : Point)
    : told (log ++ [point]) = point.revise (told log) :=
  List.foldl_append

-----------------------------------------------------------------------------------------
-- Lines that last
-----------------------------------------------------------------------------------------

/-- Lines keep their places, and what is told of each lasts. -/
def Lasting (before after : List Line) : Prop :=
  ∀ (index : Nat) line, before[index]? = some line → ∃ now, after[index]? = some now ∧ line.Lasts now

namespace Lasting

variable {before middle last : List Line}

theorem refl (lines : List Line) : Lasting lines lines :=
  fun _ line found => ⟨line, found, .refl line⟩

theorem trans (first : Lasting before middle) (second : Lasting middle last)
    : Lasting before last := by
  intro index line found
  obtain ⟨between, found, lasts⟩ := first index line found
  obtain ⟨now, found, also⟩ := second index between found
  exact ⟨now, found, lasts.trans also⟩

theorem modify (lines : List Line) (place : Nat) {change : Line → Line}
    (lasts : ∀ line : Line, line.Lasts (change line))
    : Lasting lines (lines.modify place change) := by
  intro index line found
  rw [List.getElem?_modify, found]
  by_cases same : place = index
  · exact ⟨change line, by simp [same], lasts line⟩
  · exact ⟨line, by simp [same], .refl line⟩

end Lasting

theorem Wiring.lasting_revise (w : Wiring) (m : Machine) (lines : List Line)
    : Lasting lines (w.revise m lines) := by
  cases w with
  | register signal callback =>
      dsimp only [revise]
      split
      · intro index line found
        have inside := (List.getElem?_eq_some_iff.mp found).1
        exact ⟨line, (List.getElem?_append_left inside).trans found, .refl line⟩
      · exact .refl lines
  | setEnabled index on => exact .modify lines index (·.lasts_turned on)
  | disconnect index => exact .modify lines index fun _ => ⟨rfl, fun _ => rfl⟩

theorem Point.lasting_revise (point : Point) (lines : List Line)
    : Lasting lines (point.revise lines) := by
  unfold revise
  split
  · exact Wiring.lasting_revise _ point.machine lines
  · exact .refl lines

/-- What is told at one time lasts, by induction over the points that follow. -/
theorem lasting_told (log later : List Point) : Lasting (told log) (told (log ++ later)) := by
  induction later generalizing log with
  | nil =>
      rw [List.append_nil]
      exact .refl _
  | cons point later ih =>
      have first : Lasting (told log) (told (log ++ [point])) :=
        told_concat log point ▸ point.lasting_revise _
      have rest := ih (log ++ [point])
      rw [List.append_assoc] at rest
      exact first.trans rest

theorem map_made_modify (lines : List Line) (place : Nat) {change : Line → Line}
    (same : ∀ line : Line, (change line).made = line.made)
    : (lines.modify place change).map Line.made = lines.map Line.made := by
  refine List.ext_getElem? fun index => ?_
  rw [List.getElem?_map, List.getElem?_map, List.getElem?_modify]
  cases lines[index]? with
  | none => rfl
  | some line => by_cases here : place = index <;> simp [here, same]

/-- A point adds the connection that is made at it, if any, behind the others. -/
theorem Point.map_made_revise (point : Point) (lines : List Line)
    : (point.revise lines).map Line.made = lines.map Line.made ++ point.makes?.toList := by
  unfold revise makes?
  cases point.wiring? with
  | none => exact (List.append_nil _).symm
  | some w =>
      dsimp only
      cases w with
      | register signal callback =>
          dsimp only [Wiring.revise]
          split
          · exact List.map_append
          · exact (List.append_nil _).symm
      | setEnabled index on =>
          refine (map_made_modify lines index fun line => (line.lasts_turned on).made).trans ?_
          exact (List.append_nil _).symm
      | disconnect index =>
          refine (map_made_modify lines index fun line => (rfl : line.ended.made = line.made)).trans ?_
          exact (List.append_nil _).symm

/-- The lines are of the connections that were made, in the order in which they were. -/
theorem map_made_told (log : List Point) : (told log).map Line.made = log.filterMap Point.makes? := by
  induction log using List.reverseRecOn with
  | nil => rfl
  | append_singleton log point ih =>
      rw [told_concat, Point.map_made_revise, ih, List.filterMap_append]
      cases made : point.makes? <;> simp [made]

-----------------------------------------------------------------------------------------
-- The registry and what is told of it
-----------------------------------------------------------------------------------------

namespace ConnectionRegistry

variable {registry : ConnectionRegistry} {lines : List Line}

/-- The registry shows what the lines tell. -/
def Shows (registry : ConnectionRegistry) (lines : List Line) : Prop :=
  ∀ index : Nat, registry[index]?.map Connection.shown = lines[index]?.map Line.shown

namespace Shows

theorem size_eq (shows : registry.Shows lines) : registry.size = lines.length := by
  have ends {index : Nat} : registry[index]? = none ↔ lines[index]? = none := by
    rw [← Option.map_eq_none_iff, shows index, Option.map_eq_none_iff]
  refine Nat.le_antisymm ?_ ?_
  · exact Array.getElem?_eq_none_iff.mp (ends.mpr (List.getElem?_eq_none (Nat.le_refl _)))
  · exact List.getElem?_eq_none_iff.mp (ends.mp (Array.getElem?_eq_none (Nat.le_refl _)))

theorem push (shows : registry.Shows lines) {connection : Connection} {line : Line}
    (same : connection.shown = line.shown)
    : Shows (registry.push connection) (lines ++ [line]) := by
  intro index
  rw [Array.getElem?_push, List.getElem?_append, shows.size_eq]
  by_cases here : index = lines.length
  · simp [here, same]
  · rw [if_neg here, shows index]
    split
    · rfl
    · have past : lines.length < index := by omega
      rw [List.getElem?_eq_none (Nat.le_of_lt past), List.getElem?_eq_none (by simp; omega)]

theorem modify (shows : registry.Shows lines) (place : Nat) {change : Connection → Connection}
    {revise : Line → Line}
    (alike : ∀ connection line, connection.shown = line.shown
      → (change connection).shown = (revise line).shown)
    : Shows (registry.modify place change) (lines.modify place revise) := by
  intro index
  have same := shows index
  rw [Array.getElem?_modify, List.getElem?_modify]
  cases known : registry[index]? <;> cases told : lines[index]? <;> rw [known, told] at same
  · split <;> rfl
  · cases same
  · cases same
  · have same := alike _ _ (Option.some.inj same)
    by_cases here : place = index <;> simp_all

theorem line (shows : registry.Shows lines) {connection : Connection}
    (found : registry[index]? = some connection)
    : ∃ line, lines[index]? = some line ∧ connection.shown = line.shown := by
  have same := shows index
  rw [found] at same
  obtain ⟨line, listed, also⟩ := Option.map_eq_some_iff.mp same.symm
  exact ⟨line, listed, also.symm⟩

/-- A connection that has not ended has the callback that its line tells. -/
theorem guard (shows : registry.Shows lines) {line : Line} (listed : lines[index]? = some line)
    (goes : line.standing ≠ .ended)
    : ∃ connection guard, registry[index]? = some connection ∧ connection.callback = some guard
        ∧ guard.value = line.callback := by
  have same := shows index
  rw [listed] at same
  obtain ⟨connection, found, also⟩ := Option.map_eq_some_iff.mp same
  have callback := congrArg (·.2.1) also
  simp only [Connection.shown, Line.shown, if_neg goes] at callback
  obtain ⟨guard, holds, value⟩ := Option.map_eq_some_iff.mp callback
  exact ⟨connection, guard, found, holds, value⟩

/-- What firing a connection runs is what its line tells. -/
theorem callback?_eq (shows : registry.Shows lines) (index : Nat)
    : registry.callback? index = lines[index]?.bind Line.rings? := by
  have same := shows index
  unfold callback?
  cases known : registry[index]? <;> cases told : lines[index]? <;> rw [known, told] at same
  · rfl
  · cases same
  · cases same
  · rename_i connection line
    obtain ⟨name, callback, enabled⟩ := connection
    obtain ⟨signal, value, standing⟩ := line
    cases standing <;> cases callback <;> simp_all [Connection.shown, Line.shown, Line.rings?]

end Shows
end ConnectionRegistry

/-- Whatever is done to the connections of a machine is told of them. -/
theorem Wiring.shows {lines : List Line} (w : Wiring)
    (shows : ConnectionRegistry.Shows m.connections lines)
    : ConnectionRegistry.Shows (m.wired w).connections (w.revise m lines) := by
  cases w with
  | register signal callback =>
      unfold Machine.wired
      dsimp only [revise]
      cases accepted : m.accepts callback with
      | true =>
          rw [Machine.register_of_accepts accepted]
          exact shows.push rfl
      | false =>
          obtain ⟨failure, refused⟩ := Machine.register_of_not_accepts accepted signal
          rw [refused]
          exact shows
  | setEnabled index on =>
      refine shows.modify index fun connection line same => ?_
      obtain ⟨name, callback, enabled⟩ := connection
      obtain ⟨signal, value, standing⟩ := line
      cases standing <;> cases callback <;> cases on <;>
        simp_all [Connection.shown, Line.shown, Line.turned]
  | disconnect index =>
      rw [Machine.wired_disconnect, (Machine.calm_letGoAll _ _).connections]
      refine shows.modify index fun connection line same => ?_
      simp_all [Connection.shown, Line.shown, Line.ended]

theorem Point.Moves.shows {lines : List Line} {point : Point} (moves : point.Moves m)
    (shows : ConnectionRegistry.Shows point.machine.connections lines)
    : ConnectionRegistry.Shows m.connections (point.revise lines) := by
  rw [moves.connections]
  unfold wired revise
  cases point.wiring? with
  | none => exact shows
  | some w => exact w.shows shows

-----------------------------------------------------------------------------------------
-- What connections retain
-----------------------------------------------------------------------------------------

/-- No step takes away an object that is retained. -/
theorem Point.Moves.live_of_retained {point : Point} (moves : point.Moves m) {slot : Handle}
    {value : Value} {object : ObjectRef}
    (retained : point.machine.heap.retained.get slot = .ok value)
    (names : value.object? = some object) (live : point.machine.heap.isLive object = true)
    : m.heap.isLive object = true := by
  by_cases collects : point.mark = .asks .collect
  · obtain ⟨first, does, near⟩ := moves.does
    obtain ⟨mark, now⟩ := point
    cases collects
    cases does
    have anchored := now.anchored_of_retained retained [.table now.globals]
    exact near.calm.live object (now.isLive_collect anchored names live)
  · exact moves.live collects live

/-- Where a connection ends the slot of its callback is given back. -/
theorem Point.Moves.released {point : Point} (moves : point.Moves m)
    (wires : point.wiring? = some (.disconnect index)) {connection : Connection} {guard : Guard}
    (found : point.machine.connections[index]? = some connection)
    (holds : connection.callback = some guard) (value : Value)
    : m.heap.retained.get guard.slot ≠ .ok value := by
  obtain ⟨_, _, _, rfl⟩ := (moves.disconnected wires).same
  have given : (point.machine.connections[index]? >>= (·.callback)).toList = [guard] := by
    rw [found]
    exact congrArg Option.toList holds
  rw [Machine.wired_disconnect, given]
  exact fun retained => (Arena.get_remove.mp retained).1 rfl

theorem Accounts.Balanced.connected {accounts : Accounts} (balanced : accounts.Balanced m)
    {connection : Connection} {guard : Guard} (found : m.connections[index]? = some connection)
    (holds : connection.callback = some guard)
    : m.heap.retained.get guard.slot = .ok guard.value := by
  have listed : guard ∈ ConnectionRegistry.guards m.connections :=
    List.mem_filterMap.mpr ⟨connection, Array.mem_toList_iff.mpr (Array.mem_of_getElem? found), holds⟩
  exact balanced.get (List.mem_append_right _ (List.mem_append_right _ listed))

/-- What points carry on with about connections. -/
structure Machine.Recounts (log : List Point) (m : Machine) : Prop where
  shows : ConnectionRegistry.Shows m.connections (told log)
  survives {earlier later : List Point} {here : Point} {index : Nat} {line now : Line}
    {object : ObjectRef}
    : log = earlier ++ here :: later → (told earlier)[index]? = some line
      → (told log)[index]? = some now → now.standing ≠ .ended
      → line.callback.object? = some object → here.machine.heap.isLive object = true
      → m.heap.isLive object = true
  released {earlier later : List Point} {here : Point} {index : Nat} {connection : Connection}
    {guard : Guard}
    : log = earlier ++ here :: later → here.wiring? = some (.disconnect index)
      → here.machine.connections[index]? = some connection → connection.callback = some guard
      → ∀ value, (reached later m).heap.retained.get guard.slot ≠ .ok value

theorem Machine.connections_create (heap : Nat) (config : Config)
    : (create heap config).connections = #[] :=
  (create_follows heap config : Calm _ _).connections

namespace Machine.Recounts

theorem create (heap : Nat) (config : Config) : (Machine.create heap config).Recounts [] where
  shows index := by
    rw [connections_create]
    rfl
  survives split := by simp at split
  released split := by simp at split

theorem turn (recounts : m.Recounts log) (context : ContextRef) (prototypes : PrototypeStore)
    : Machine.Recounts log { m with context, prototypes } where
  shows := recounts.shows
  survives := recounts.survives
  released {earlier later here index connection guard} split wires found holds := by
    have vacant := recounts.released split wires found holds
    cases later <;> exact vacant

theorem step {point : Point} {accounts : Accounts} (recounts : point.machine.Recounts log)
    (balanced : accounts.Balanced point.machine) (moves : point.Moves m)
    : m.Recounts (log ++ [point]) where
  shows := told_concat log point ▸ moves.shows recounts.shows
  survives {earlier later here index line now object} split listed known goes names live := by
    have still {line : Line} (listed : (told log)[index]? = some line) : line.standing ≠ .ended := by
      obtain ⟨now', also, lasts⟩ := lasting_told log [point] index line listed
      cases known.symm.trans also
      exact fun gone => goes (lasts.ended gone)
    have onward {line : Line} (listed : (told log)[index]? = some line)
        (names : line.callback.object? = some object)
        (live : point.machine.heap.isLive object = true)
        : m.heap.isLive object = true := by
      obtain ⟨connection, guard, found, holds, value⟩ := recounts.shows.guard listed (still listed)
      exact moves.live_of_retained (balanced.connected found holds) (value ▸ names) live
    rcases split_concat split with ⟨rfl, rfl, rfl⟩ | ⟨rest, rfl, rfl⟩
    · exact onward listed names live
    · obtain ⟨between, also, lasts⟩ := lasting_told earlier (here :: rest) index line listed
      have same : between.callback = line.callback := congrArg Prod.snd lasts.made
      have there := recounts.survives rfl listed also (still also) names live
      exact onward also (same ▸ names) there
  released {earlier later here index connection guard} split wires found holds value := by
    rcases split_concat split with ⟨rfl, rfl, rfl⟩ | ⟨rest, rfl, rfl⟩
    · exact moves.released wires found holds value
    · rw [reached_concat]
      exact recounts.released rfl wires found holds value

end Machine.Recounts

-----------------------------------------------------------------------------------------
-- Lives
-----------------------------------------------------------------------------------------

/-- What is known of connections in a machine after the points of a log. -/
structure Machine.Wired (log : List Point) (m : Machine) : Prop where
  /-- Each index has the signal and the callback of the registration of that number. -/
  made : (told log).map Line.made = log.filterMap Point.makes?
  /-- Each connection shows what was done to it. -/
  shows : ConnectionRegistry.Shows m.connections (told log)
  /-- The next registration, if it succeeds, gets the next index, and else changes nothing. -/
  registers (signal : String) (callback : Value)
    : if m.accepts callback then
        ∃ after, Connection.register signal callback m
          = .ok (log.filterMap Point.makes?).length after
      else
        ∃ failure, Connection.register signal callback m = .error (.failed failure) m
  enabled {index : Nat} {connection : Connection}
    : m.connections[index]? = some connection → connection.enabled = true
      → connection.callback.isSome = true
  /-- What was told of a connection lasts: its signal and its callback, and that it has ended. -/
  lasts {earlier later : List Point} : log = earlier ++ later → Lasting (told earlier) (told log)
  /-- A connection that has ended is neither enabled nor connected, and retains nothing. -/
  ended {index : Nat} {line : Line}
    : (told log)[index]? = some line → line.standing = .ended
      → ∃ connection, m.connections[index]? = some connection ∧ connection.callback = none
          ∧ connection.enabled = false
  released {earlier later : List Point} {here : Point} {index : Nat} {connection : Connection}
    {guard : Guard}
    : log = earlier ++ here :: later → here.wiring? = some (.disconnect index)
      → here.machine.connections[index]? = some connection → connection.callback = some guard
      → ∀ value, (reached later m).heap.retained.get guard.slot ≠ .ok value
  /-- One that has not ended retains its callback. -/
  retained {index : Nat} {connection : Connection} {guard : Guard}
    : m.connections[index]? = some connection → connection.callback = some guard
      → m.heap.retained.get guard.slot = .ok guard.value
  survives {earlier later : List Point} {here : Point} {index : Nat} {line now : Line}
    {object : ObjectRef}
    : log = earlier ++ here :: later → (told earlier)[index]? = some line
      → (told log)[index]? = some now → now.standing ≠ .ended
      → line.callback.object? = some object → here.machine.heap.isLive object = true
      → m.heap.isLive object = true
  /-- Firing a connection runs the callback that was registered if it is enabled. -/
  rings (index : Nat) : Connection.Rings m index ((told log)[index]?.bind Line.rings?)

theorem Machine.Recounts.wired {accounts : Accounts} (recounts : m.Recounts log)
    (balanced : accounts.Balanced m)
    : m.Wired log where
  made := map_made_told log
  shows := recounts.shows
  registers signal callback := by
    have size : m.connections.size = (log.filterMap Point.makes?).length := by
      rw [recounts.shows.size_eq, ← map_made_told, List.length_map]
    split
    · rename_i accepted
      exact ⟨_, size ▸ register_of_accepts accepted signal⟩
    · rename_i refused
      exact register_of_not_accepts (Bool.eq_false_iff.mpr refused) signal
  enabled {index connection} found on := by
    obtain ⟨line, listed, same⟩ := recounts.shows.line found
    obtain ⟨name, callback, enabled⟩ := connection
    obtain ⟨signal, value, standing⟩ := line
    cases standing <;> cases callback <;> simp_all [Connection.shown, Line.shown]
  lasts split := by
    rw [split]
    exact lasting_told _ _
  ended {index line} listed gone := by
    have same := recounts.shows index
    rw [listed] at same
    obtain ⟨connection, found, also⟩ := Option.map_eq_some_iff.mp same
    simp only [Connection.shown, Line.shown, gone, Prod.mk.injEq, if_true, reduceCtorEq,
      decide_false, Option.map_eq_none_iff] at also
    exact ⟨connection, found, also.2⟩
  released := recounts.released
  retained := balanced.connected
  survives := recounts.survives
  rings index := recounts.shows.callback?_eq index ▸ Connection.rings m index

/-- Throughout the life of a runtime its connections are what was done to them, at every point, also
within callbacks, and after every session.
-/
theorem Machine.Logged.connections_told {accounts : Accounts} (life : Logged config accounts log m)
    : m.Wired log
      ∧ ∀ earlier here later, log = earlier ++ here :: later → here.machine.Wired earlier := by
  let P (log : List Point) (m : Machine) : Prop :=
    (∀ point ∈ log, ∃ accounts : Accounts, accounts.Balanced point.machine) → m.Recounts log
  have starts (heap : Nat) : P [] (create heap config) := fun _ => .create heap config
  have turns {log : List Point} {m : Machine} (context : ContextRef) (prototypes : PrototypeStore)
      (held : P log m)
      : P log { m with context, prototypes } :=
    fun balanced => (held balanced).turn context prototypes
  have step (log : List Point) (point : Point) (m : Machine) (held : P log point.machine)
      (moves : point.Moves m) (_ : point.Opened log m)
      : P (log ++ [point]) m := by
    intro balanced
    obtain ⟨accounts, here⟩ := balanced point (by simp)
    exact (held fun other member => balanced other (by simp [member])).step here moves
  refine ⟨(life.interleaved.holds starts turns step life.balanced).wired life.lived.balanced, ?_⟩
  rintro earlier here later rfl
  obtain ⟨accounts, balanced⟩ := life.balanced here (by simp)
  refine (life.interleaved.holds_at starts turns step rfl fun point member => ?_).wired balanced
  exact life.balanced point (List.mem_append_left _ member)

/-- A host connects a callback, fires it, ends the connection, and fires it in vain. -/
theorem Machine.Logged.connections_told_ended
    : ∃ (accounts : Accounts) (log : List Point) (m : Machine), Logged {} accounts log m
        ∧ log.length = 12 ∧ (told log).map Line.standing = [.ended] ∧ m.Wired log
        ∧ ∀ earlier here later, log = earlier ++ here :: later → here.machine.Wired earlier := by
  let callback : Value := .native ⟨⟨1, 1, 0⟩⟩
  let program : HostProgram :=
    .ask (.connect "signal" callback) fun _ => .ask (.fire 0 []) fun _ =>
      .ask (.disconnect 0) fun _ => .ask (.fire 0 []) fun _ => .finish []
  let start : Machine := { create 1 {} with context := ⟨0⟩, prototypes := {} }
  have allows : Watch.accounts.Allows {} (program.trace 3 start) := by decide +kernel
  have length : (⟨.left, start⟩ :: program.trace 3 start).length = 12 := by decide +kernel
  have standing : (told (⟨.left, start⟩ :: program.trace 3 start)).map Line.standing = [.ended] := by
    decide +kernel
  have begins : Logged {} {} [] (create 1 {}) := .created 1
  have life := begins.session ⟨0⟩ {} 3 program allows
  rw [List.nil_append] at life
  exact ⟨_, _, _, life, length, standing, life.connections_told⟩

end HookMachine
