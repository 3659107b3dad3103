import HookMachine.Proofs.Deeds.Runs

/-!
Sessions of many contexts with one runtime, in any order. What single points carry on with holds at
every point of every session, and between them.
-/

namespace HookMachine

variable {config : Config} {log : List Point} {m : Machine}

theorem Script.register_keeps {s : Scope} (allowed : ∀ ref, s.allows (.write ref))
    (functions : List ScriptFunction)
    : s.Keeps (register functions) := by
  induction functions with
  | nil => exact .pure trivial
  | cons f rest ih =>
      refine (Vm.newNative_keeps _).andThen fun native => .andThen .get fun m => ?_
      exact (Vm.rawSet_keeps _ _ (.inr (allowed _))).andThen fun _ => ih

namespace Machine

/-- The scope in which a runtime is made: nothing is allowed but to write into tables. -/
def making (heap : Nat) (config : Config) : Scope where
  origin := bare heap config
  allows deed := ∃ ref, deed = .write ref

theorem leads_create (heap : Nat) (config : Config)
    : (making heap config).Leads (bare heap config) (create heap config) := by
  have registered := Script.register_keeps (s := making heap config) (fun ref => ⟨ref, rfl⟩)
    ScriptFunction.all
  have kept := registered.outcome _ (making heap config).precedes_origin
  change Scope.Kept _ _ _ (Script.register ScriptFunction.all (bare heap config)) at kept
  unfold create
  generalize Script.register ScriptFunction.all (bare heap config) = outcome at kept ⊢
  cases outcome with
  | ok _ after => exact kept.1
  | error halt after => exact kept

end Machine

/-- A runtime after sessions of any contexts, and the points that they came by. Between two of them
other runtimes may have changed the prototypes.
-/
inductive Machine.Interleaved (config : Config) : List Point → Machine → Prop
  | starts (heap : Nat) : Interleaved config [] (create heap config)
  | session {log : List Point} {m : Machine} (before : Interleaved config log m) (context : ContextRef)
    (prototypes : PrototypeStore) (fuel : Nat) (program : HostProgram)
    : Interleaved config
        (log ++ ⟨.left, { m with context, prototypes }⟩
          :: program.trace fuel { m with context, prototypes })
        ((Plan.program none 0 program).run (Vm.call fuel) { m with context, prototypes }).last

theorem reached_concat (later : List Point) (point : Point) (m : Machine)
    : reached (later ++ [point]) m = reached later point.machine := by
  cases later <;> rfl

/-- A point of a log with one more at its end is that one or comes before it. -/
theorem split_concat {earlier later : List Point} {point here : Point}
    (split : log ++ [point] = earlier ++ here :: later)
    : (later = [] ∧ log = earlier ∧ point = here)
      ∨ ∃ rest, later = rest ++ [point] ∧ log = earlier ++ here :: rest := by
  rcases List.eq_nil_or_concat' later with rfl | ⟨rest, last, rfl⟩
  · exact .inl ⟨rfl, List.append_singleton_inj.mp split⟩
  · rw [← List.cons_append, ← List.append_assoc] at split
    obtain ⟨rfl, rfl⟩ := List.append_singleton_inj.mp split
    exact .inr ⟨rest, rfl, rfl⟩

namespace Machine.Interleaved

variable {P : List Point → Machine → Prop} (starts : ∀ heap, P [] (create heap config))
  (turns : ∀ {log m} context prototypes, P log m → P log { m with context, prototypes })
  (step : ∀ log (p : Point) m, P log p.machine → p.Moves m → p.Opened log m → P (log ++ [p]) m)

include starts turns step

/-- What single points carry on with holds at the end of every session, by induction over the
sessions.
-/
theorem holds (life : Interleaved config log m) : P log m := by
  induction life with
  | starts heap => exact starts heap
  | @session log m before context prototypes fuel program ih =>
      exact (program.linked fuel _).holds_last step _ (turns context prototypes ih)
        (Point.opened_of_ne (by nofun) _)

/-- What single points carry on with holds at every point of every session. -/
theorem holds_at (life : Interleaved config log m) {earlier later : List Point} {here : Point}
    (split : log = earlier ++ here :: later)
    : P earlier here.machine := by
  induction life generalizing earlier later with
  | starts heap => simp at split
  | @session log m before context prototypes fuel program ih =>
      have begins := turns context prototypes (before.holds starts turns step)
      rcases List.append_eq_append_iff.mp split with ⟨more, rfl, rest⟩ | ⟨more, rfl, rest⟩
      · cases more with
        | nil =>
            obtain ⟨rfl, -⟩ := List.cons.inj rest
            rwa [List.append_nil]
        | cons first more =>
            obtain ⟨rfl, points⟩ := List.cons.inj rest
            exact (points ▸ program.linked fuel _).holds_at step _ begins
              (Point.opened_of_ne (by nofun) _)
      · cases more with
        | nil =>
            obtain ⟨rfl, -⟩ := List.cons.inj rest
            rwa [List.append_nil] at begins
        | cons first more =>
            obtain ⟨rfl, -⟩ := List.cons.inj rest
            exact ih rfl

omit starts turns step

/-- What a single point does shows in the machine of the next, or in the last. -/
theorem reached_at {Q : Point → Machine → Prop}
    (turns : ∀ {p m} context prototypes, Q p m → Q p { m with context, prototypes })
    (step : ∀ (p : Point) m, p.Moves m → Q p m) (life : Interleaved config log m)
    {earlier later : List Point} {here : Point} (split : log = earlier ++ here :: later)
    : Q here (reached later m) := by
  let P (log : List Point) (m : Machine) : Prop :=
    ∀ earlier here later, log = earlier ++ here :: later → Q here (reached later m)
  refine life.holds (P := P) ?_ (fun context prototypes known => ?_) (fun log p m known moves _ => ?_)
    earlier here later split
  · exact fun _ _ _ _ split => by simp at split
  · intro earlier here later split
    cases later with
    | nil => exact turns context prototypes (known earlier here [] split)
    | cons next rest => exact known earlier here (next :: rest) split
  · intro earlier here later split
    rcases split_concat split with ⟨rfl, rfl, rfl⟩ | ⟨rest, rfl, rfl⟩
    · exact step p m moves
    · rw [reached_concat]
      exact known earlier here rest rfl

end Machine.Interleaved
end HookMachine
