import HookMachine.Proofs.Capture.Assignments

/-!
Which captured variables are the same. Slots of closures and of activations share a cell if they come from
one register that an activation captured, or from one variable of a closure over a prototype, and only
then. A cell holds what was given to the variable, and nothing but an assignment changes it.
-/

namespace HookMachine

open Machine (Lenient)

variable {config : Config} {log earlier later : List Point} {m after first : Machine} {point : Point}
  {frame : Frame} {i : Instruction}

-----------------------------------------------------------------------------------------
-- Runs
-----------------------------------------------------------------------------------------

theorem Machine.cells_collect (m : Machine) : m.collect.2.cells = m.cells := by
  unfold collect
  split <;> rfl

/-- A closure that survives a collection has the cells that it had. -/
theorem Machine.upvalues?_of_collect {ref : ClosureRef} {upvalues : Array CellRef}
    (there : m.collect.2.upvalues? ref = some upvalues)
    : m.upvalues? ref = some upvalues := by
  unfold collect at there
  split at there
  · exact there
  · unfold upvalues? at there
    rcases held : (m.collectFrom [.table m.globals]).2.heap.closures.get ref.handle with miss | now
      <;> rw [held] at there
    · cases there
    · obtain ⟨before, known, rfl⟩ := Heap.closure_of_collect held
      cases there
      change m.upvalues? ref = some before.upvalues
      exact upvalues?_of_get known

namespace Story

variable {s : Story} {cell : Origin → Option CellRef}

/-- Whatever happens at a point, what is known of variables and their cells goes on to be known. -/
theorem Told.step (told : s.Told cell point.machine)
    (knows : ∀ frame i, point.mark = .executes frame i → s.Knows frame) (moves : point.Moves m)
    : ∃ wider, (s.after point).Told wider m := by
  obtain ⟨first, does, near⟩ := moves.does
  suffices ∃ wider, (s.after point).Told wider first by
    obtain ⟨wider, told⟩ := this
    exact ⟨wider, told.upholds (Lenient.of_near near)⟩
  by_cases collects : point.mark = .asks .collect
  · have uncaptured : ¬point.Captures := by
      rintro ⟨frame, i, executes, -⟩
      cases collects.symm.trans executes
    have passed := told.pass uncaptured
    obtain ⟨mark, now⟩ := point
    cases collects
    cases does
    exact ⟨cell, passed.shrinks now.cells_collect fun _ _ => Machine.upvalues?_of_collect⟩
  · by_cases captures : point.Captures
    · obtain ⟨frame, i, executes, operation⟩ := captures
      obtain ⟨mark, now⟩ := point
      cases executes
      rcases operation with closes | sets
      · exact told.captures (knows frame i rfl) closes does
      · exact ⟨cell, told.assigns (knows frame i rfl) sets does⟩
    · exact told.uncaptured does collects captures

/-- In a new runtime there are no variables. -/
theorem told_create (heap : Nat) (config : Config)
    : (of []).Told (fun _ => none) (Machine.create heap config) := by
  have none (ref : ClosureRef) : (Machine.create heap config).upvalues? ref = none := by
    have upholds : (Machine.bare heap config).Upholds _ := Machine.create_follows heap config
    rw [upholds.upvalues]
    unfold Machine.upvalues?
    rcases held : (Machine.bare heap config).heap.closures.get ref.handle with miss | c
    · rfl
    · exact (Arena.get_empty heap _ _ held).elim
  constructor
  case closures =>
    intro ref upvalues k x there
    cases (none ref).symm.trans there
  all_goals simp [of, through]

/-- What is known of variables after the points of a log by which every activation is known. -/
def Tells (log : List Point) (m : Machine) : Prop :=
  Recounts {} log → ∃ cell, (of log).Told cell m

theorem tells_turn (context : ContextRef) (prototypes : PrototypeStore) (tells : Tells log m)
    : Tells log { m with context, prototypes } := fun recounts => by
  obtain ⟨cell, told⟩ := tells recounts
  exact ⟨cell, told.upholds (.of_same rfl rfl)⟩

theorem tells_step (tells : Tells log point.machine) (moves : point.Moves m)
    : Tells (log ++ [point]) m := fun recounts => by
  obtain ⟨before, knows, -⟩ := recounts_append.mp recounts
  obtain ⟨cell, told⟩ := tells before
  rw [of_append]
  exact told.step knows moves

end Story

namespace Machine.Interleaved

/-- Each variable has a cell of its own, in the end. -/
theorem told (life : Interleaved config log m) : ∃ cell, (Story.of log).Told cell m :=
  life.holds (P := Story.Tells) (fun heap _ => ⟨_, Story.told_create heap config⟩) Story.tells_turn
    (fun _ _ _ tells moves _ => Story.tells_step tells moves) life.recounts.1

/-- Each variable has a cell of its own, at every point, where the activation that executes is known. -/
theorem told_at (life : Interleaved config log m) (split : log = earlier ++ point :: later)
    : (∃ cell, (Story.of earlier).Told cell point.machine)
      ∧ ∀ frame i, point.mark = .executes frame i → (Story.of earlier).Knows frame := by
  have recounts := life.recounts.1
  rw [split] at recounts
  obtain ⟨before, knows, -⟩ := Story.recounts_append.mp recounts
  refine ⟨?_, knows⟩
  exact life.holds_at (P := Story.Tells) (fun heap _ => ⟨_, Story.told_create heap config⟩)
    Story.tells_turn (fun _ _ _ tells moves _ => Story.tells_step tells moves) split before

end Machine.Interleaved

-----------------------------------------------------------------------------------------
-- Cells from point to point
-----------------------------------------------------------------------------------------

/-- The cell that is assigned at a point, and what it is given. -/
def Point.assigns? (point : Point) : Option (CellRef × Value) :=
  match point.mark with
  | .executes frame i =>
      if i.operation? = some .setUpval then
        frame.upvalues[i.b]?.map (·, frame.read i.a)
      else
        none
  | _ => none

/-- What a cell holds past a point. -/
def Point.leaves (point : Point) (k : Nat) : Option Value :=
  match point.assigns? with
  | some (x, value) => if x.index = k then some value else point.machine.cells[k]?
  | none => point.machine.cells[k]?

/-- Closures are made without a change to cells that are there, by induction over those made. -/
theorem Machine.Breeds.keeps {source : Option ClosureRef} (breeds : m.Breeds source after) {k : Nat}
    {value : Value} (held : m.cells[k]? = some value)
    : after.cells[k]? = some value := by
  induction breeds with
  | refl => exact held
  | tail _ begets ih =>
      cases begets with
      | upholds upholds => rwa [upholds.cells]
      | copies _ _ _ cells => rwa [cells]
      | founds _ _ cells =>
          rw [cells, Array.getElem?_append_left (Array.getElem?_eq_some_iff.mp ih).1, ih]

/-- Nothing but an assignment changes what a cell holds. -/
theorem Point.Moves.cells (moves : point.Moves m) {k : Nat}
    (within : k < point.machine.cells.size)
    : m.cells[k]? = point.leaves k := by
  have held : point.machine.cells[k]? = some point.machine.cells[k] :=
    Array.getElem?_eq_getElem within
  obtain ⟨first, does, near⟩ := moves.does
  have same : m.cells = first.cells := (Lenient.of_near (R := Machine.Upholds) near).cells
  rw [same]
  by_cases captures : point.Captures
  · obtain ⟨frame, i, executes, operation⟩ := captures
    obtain ⟨mark, now⟩ := point
    cases executes
    unfold leaves assigns?
    dsimp only at held ⊢
    rcases operation with closes | sets
    · obtain ⟨invoke, rfl⟩ := does.executes closes (.inl rfl)
      rw [closes, if_neg nofun, held]
      change (Vm.close _ i now).last.cells[k]? = _
      have as := Vm.close_as { frame with pc := frame.pc + 1 } i now
      rcases ran : Vm.close { frame with pc := frame.pc + 1 } i now with ⟨next, last⟩ | ⟨halt, last⟩
        <;> rw [ran] at as
      · cases as with
        | closes _ takes _ kept =>
            change last.cells[k]? = _
            rw [kept]
            exact takes.extended.keeps held
      · cases as with
        | fails extended => exact extended.keeps held
    · obtain ⟨invoke, rfl⟩ := does.executes sets (.inr rfl)
      rw [Vm.setUpval_last, if_pos sets]
      dsimp only
      cases frame.upvalues[i.b]? with
      | none => rfl
      | some x =>
          change (now.cells.setIfInBounds _ _)[k]? = if x.index = k then _ else _
          rw [Array.getElem?_setIfInBounds]
          split
          · rename_i is
            rw [if_pos (is ▸ within)]
            rfl
          · rfl
  · have unassigned : point.assigns? = none := by
      unfold assigns?
      split
      · rename_i frame i executes
        exact if_neg fun sets => captures ⟨frame, i, executes, .inr sets⟩
      · rfl
    unfold leaves
    rw [unassigned]
    by_cases collects : point.mark = .asks .collect
    · obtain ⟨mark, now⟩ := point
      cases collects
      cases does
      exact congrArg (·[k]?) (Machine.cells_collect now)
    · exact ((does.breeds collects captures).keeps held).trans held.symm

-----------------------------------------------------------------------------------------
-- Which variables are the same
-----------------------------------------------------------------------------------------

/-- The cell of a variable of a closure that is there. -/
def Machine.cell? (m : Machine) (ref : ClosureRef) (k : Nat) : Option CellRef :=
  (m.upvalues? ref).bind (·[k]?)

/-- What a variable holds, told by the points of a log. -/
def Lineage.holds (lineage : Lineage) (o : Origin) : Value :=
  .orNil (lineage.value o)

/-- Closures share the cells of those variables that come from the same, and of no others; what a cell
holds was given to such a variable.
-/
structure Machine.Aliases (log : List Point) (m : Machine) : Prop where
  shared {f g k l x y}
    : m.cell? f k = some x → m.cell? g l = some y
      → (x = y ↔ (Lineage.of log).origin f k = (Lineage.of log).origin g l)
  holds {f k x}
    : m.cell? f k = some x
      → m.cells[x.index]? = some ((Lineage.of log).holds ((Lineage.of log).origin f k))

/-- What an activation reads and assigns where it executes an instruction: the variables of its closure,
whose cells it shares with closures that have them.
-/
structure Activation.Aliases (activation : Activation) (log : List Point) (frame : Frame)
    (i : Instruction) (m : Machine)
    : Prop where
  shared {k x}
    : frame.upvalues[k]? = some x → ∀ {g l y}, m.cell? g l = some y
      → (x = y ↔ activation.upvalue k = (Lineage.of log).origin g l)
  holds {k x}
    : frame.upvalues[k]? = some x
      → m.cells[x.index]? = some ((Lineage.of log).holds (activation.upvalue k))
  reads {x}
    : i.operation? = some .getUpval → frame.upvalues[i.b]? = some x
      → ∀ invoke, Vm.execute invoke frame .getUpval i m
          = .ok (frame.write i.a ((Lineage.of log).holds (activation.upvalue i.b))) m

/-- What is known of captured variables at a point, and of their cells at the next. -/
structure Point.Aliases (log : List Point) (here : Point) (next : Machine) : Prop where
  closures : here.machine.Aliases log
  /-- An activation counts as the one with the number of the point at which it was opened. -/
  opens {ref d}
    : here.opens? = some (ref, d)
      → (Lineage.of (log ++ [here])).running ((Lineage.of log).level, d)
        = some { number := log.length, upvalue := (Lineage.of log).origin ref }
  numbered {key a} : (Lineage.of log).running key = some a → a.number < log.length
  distinct {key other a b}
    : (Lineage.of log).running key = some a → (Lineage.of log).running other = some b
      → a.number = b.number → key = other
  executes
    : ∀ frame i, here.mark = .executes frame i
      → ∃ a, (Lineage.of log).executing frame = some a ∧ a.Aliases log frame i here.machine
  cells {k} : k < here.machine.cells.size → next.cells[k]? = here.leaves k

namespace Story.Told

variable {s : Story} {cell : Origin → Option CellRef}

/-- Variables have the same cell just if they come from the same. -/
theorem eq_iff (told : s.Told cell m) {o other : Origin} {x y : CellRef} (known : cell o = some x)
    (also : cell other = some y)
    : x = y ↔ o = other := by
  constructor
  · rintro rfl
    exact told.apart known also
  · rintro rfl
    exact Option.some.inj (known.symm.trans also)

theorem cell_origin (told : s.Told cell m) {f : ClosureRef} {k : Nat} {x : CellRef}
    (there : m.cell? f k = some x)
    : cell (s.origin f k) = some x := by
  obtain ⟨upvalues, held, listed⟩ := Option.bind_eq_some_iff.mp there
  exact told.closures held listed

theorem cell_upvalue (told : s.Told cell m) (knows : s.Knows frame) {a : Activation}
    (runs : s.executing frame = some a) {k : Nat} {x : CellRef}
    (listed : frame.upvalues[k]? = some x)
    : cell (a.upvalue k) = some x := by
  refine told.activations runs ?_
  rw [knows.held]
  exact listed

theorem aliases (told : (of log).Told cell m) : m.Aliases log := by
  constructor <;> rw [← toLineage_of]
  · exact fun there also => told.eq_iff (told.cell_origin there) (told.cell_origin also)
  · exact fun there => told.holds (told.cell_origin there)

theorem aliases_executes (told : (of log).Told cell m) (knows : (of log).Knows frame)
    {a : Activation} (runs : (of log).executing frame = some a) (i : Instruction)
    : a.Aliases log frame i m := by
  have holds {k : Nat} {x : CellRef} (listed : frame.upvalues[k]? = some x)
      : m.cells[x.index]? = some ((of log).holds (a.upvalue k)) :=
    told.holds (told.cell_upvalue knows runs listed)
  constructor <;> rw [← toLineage_of]
  case shared =>
    exact fun listed _ _ _ there => told.eq_iff (told.cell_upvalue knows runs listed) (told.cell_origin there)
  case holds => exact holds
  case reads =>
    intro x _ listed invoke
    unfold Vm.execute Vm.upvalue Vm.readCell
    dsimp only
    rw [listed]
    have read : m.cells.getD x.index .nil = (of log).holds (a.upvalue i.b) := by
      rw [Array.getD_eq_getD_getElem?, holds listed]
      rfl
    rw [← read]
    rfl

end Story.Told

theorem Lineage.points_of (log : List Point) : (of log).points = log.length := by
  induction log using List.reverseRecOn with
  | nil => rfl
  | append_singleton log point ih =>
      rw [of, List.foldl_append, List.length_append, ← ih]
      rfl

/-- Captured variables are the same just if they come from one register that an activation captured, or
from one variable of a closure that no activation made: then, and only then, they share a cell, and
nothing but an assignment changes what it holds.
-/
theorem Machine.Interleaved.cells_aliased (life : Interleaved config log m)
    : m.Aliases log
      ∧ ∀ earlier here later, log = earlier ++ here :: later → here.Aliases earlier (reached later m) := by
  obtain ⟨cell, told⟩ := life.told
  refine ⟨told.aliases, fun earlier here later split => ?_⟩
  obtain ⟨⟨cell, told⟩, knows⟩ := life.told_at split
  constructor
  case closures => exact told.aliases
  case opens =>
    intro ref d opens
    have opened := (Story.Told.opened_after opens (Story.of earlier)).1
    have points : (Story.of earlier).points = earlier.length := by
      rw [← Lineage.points_of, ← Story.toLineage_of]
    rw [← Story.toLineage_of, ← Story.toLineage_of, Story.of_append, opened, Function.update_self,
      points]
  case numbered =>
    intro key a runs
    rw [← Lineage.points_of, ← Story.toLineage_of]
    rw [← Story.toLineage_of] at runs
    exact told.numbered runs
  case distinct =>
    intro key other a b runs also
    rw [← Story.toLineage_of] at runs also
    exact told.distinct runs also
  case executes =>
    intro frame i executes
    obtain ⟨a, runs⟩ := Option.isSome_iff_exists.mp (knows frame i executes).running
    have aliases := told.aliases_executes (knows frame i executes) runs i
    rw [← Story.toLineage_of]
    exact ⟨a, runs, aliases⟩
  case cells =>
    intro k within
    let P (point : Point) (next : Machine) : Prop :=
      k < point.machine.cells.size → next.cells[k]? = point.leaves k
    have at_next : P here (reached later m) :=
      life.reached_at (Q := P) (fun _ _ known => known) (fun _ _ moves within => moves.cells within) split
    exact at_next within

/-- A function that gives what its only captured variable holds. -/
def reading : Prototype where
  upvalues := 1
  code := #[.abc .getUpval 0 0 0, .abc .ret 0 2 0]

/-- A function that makes two closures for its first register, which it assigns in between. -/
def recapturing (reader : PrototypeRef) : Prototype where
  nested := #[reader]
  code :=
    #[.abc .loadBool 0 1 0, .abx .closure 1 0, .abc .move 0 0 0, .abc .loadBool 0 0 0,
      .abx .closure 2 0, .abc .move 0 0 0, .abc .ret 1 3 0]

/-- A session that calls a function which captures a register twice. -/
def recapture : HostProgram :=
  .ask (.assemble reading) fun
    | .error _ => .finish []
    | .ok reader =>
        .ask (.assemble (recapturing reader)) fun
          | .error _ => .finish []
          | .ok maker =>
              .ask (.instantiate maker none) fun
                | .error _ => .finish []
                | .ok f => .call (.closure f) [] fun _ => .finish []

/-- Two closures share a cell, which the activation that made them gave them for one register. -/
theorem Machine.Interleaved.cells_aliased_twice
    : ∃ (log : List Point) (m : Machine), Interleaved {} log m
        ∧ (m.cell? ⟨⟨1, 1, 0⟩⟩ 0 = some ⟨0⟩ ∧ m.cell? ⟨⟨1, 2, 0⟩⟩ 0 = some ⟨0⟩) ∧ m.Aliases log
        ∧ ∀ earlier here later, log = earlier ++ here :: later → here.Aliases earlier (reached later m) := by
  have start : Interleaved {} _ _ := .starts 1
  have life := start.session ⟨0⟩ {} 10 recapture
  exact ⟨_, _, life, by decide +kernel, life.cells_aliased⟩

-----------------------------------------------------------------------------------------
-- Registers that are captured again
-----------------------------------------------------------------------------------------

/-- An activation captures a register where it makes a closure. -/
def Point.CapturesRegister (point : Point) (lineage : Lineage) (activation r : Nat) : Prop :=
  ∃ frame i a words, point.mark = .executes frame i ∧ i.operation? = some .closure
    ∧ lineage.executing frame = some a ∧ a.number = activation
    ∧ Vm.descriptors? frame i point.machine = some words ∧ words.any (·.describes r) = true

/-- An activation has captured a register at a point of a log. -/
def Captured (log : List Point) (activation r : Nat) : Prop :=
  ∃ earlier here later, log = earlier ++ here :: later
    ∧ here.CapturesRegister (Lineage.of earlier) activation r

/-- Where a closure is made, a register that its activation has not captured before is copied into a new
cell. One that it has captured before is not: the closure is given the cell that there is.
-/
def Point.CapturesOnce (log : List Point) (here : Point) : Prop :=
  ∀ frame i words, here.mark = .executes frame i
    → Vm.descriptors? frame i here.machine = some words
    → ∃ a ref after, ∃ now : Frame, (Lineage.of log).executing frame = some a
      ∧ (∀ invoke, Vm.execute invoke { frame with pc := frame.pc + 1 } .closure i here.machine
        = .ok (now.write i.a (.closure ref)) after)
      ∧ here.machine.upvalues? ref = none
      ∧ ∀ k word, words[k]? = some word → word.operation? = some .move
        → ∃ x, after.cell? ref k = some x
          ∧ (¬Captured log a.number word.b
            → here.machine.cells.size ≤ x.index ∧ after.cells[x.index]? = some (frame.read word.b))
          ∧ (Captured log a.number word.b
            → x.index < here.machine.cells.size
              ∧ after.cells[x.index]? = some ((Lineage.of log).holds (.register a.number word.b))
              ∧ ∀ g l y, here.machine.cell? g l = some y
                → (x = y ↔ (Lineage.of log).origin g l = .register a.number word.b))

theorem captured_concat {n r : Nat}
    : Captured (log ++ [point]) n r
      ↔ Captured log n r ∨ point.CapturesRegister (Lineage.of log) n r := by
  constructor
  · rintro ⟨earlier, here, later, split, captures⟩
    rcases split_concat split with ⟨-, rfl, rfl⟩ | ⟨rest, -, rfl⟩
    · exact .inr captures
    · exact .inl ⟨earlier, here, rest, rfl, captures⟩
  · rintro (⟨earlier, here, later, rfl, captures⟩ | captures)
    · exact ⟨earlier, here, later ++ [point], by simp, captures⟩
    · exact ⟨log, point, [], rfl, captures⟩

namespace Story.Told

variable {s : Story} {cell : Origin → Option CellRef}

/-- What is given to a register for the first time where a point captures it. -/
theorem value_after_isSome (told : s.Told cell point.machine)
    (knows : ∀ frame i, point.mark = .executes frame i → s.Knows frame) (n r : Nat)
    : ((s.after point).value (.register n r)).isSome = true
      ↔ (s.value (.register n r)).isSome = true ∨ point.CapturesRegister s.toLineage n r := by
  by_cases captures : point.Captures
  · obtain ⟨frame, i, executes, operation⟩ := captures
    obtain ⟨mark, now⟩ := point
    cases executes
    have known := knows frame i rfl
    obtain ⟨a, runs⟩ := Option.isSome_iff_exists.mp known.running
    rw [value_executes runs]
    unfold Activation.given
    rcases operation with closes | sets
    · rw [closes]
      have captures_iff {words : List Instruction} (described : Vm.descriptors? frame i now = some words)
          : Point.CapturesRegister ⟨.executes frame i, now⟩ s.toLineage n r
            ↔ n = a.number ∧ words.any (·.describes r) = true := by
        constructor
        · rintro ⟨frame, i, b, others, ⟨⟩, -, also, rfl, listed, among⟩
          cases runs.symm.trans also
          cases described.symm.trans listed
          exact ⟨rfl, among⟩
        · rintro ⟨rfl, among⟩
          exact ⟨frame, i, a, words, rfl, closes, runs, rfl, described, among⟩
      cases described : Vm.descriptors? frame i now with
      | none =>
          refine ⟨.inl, fun either => either.resolve_right ?_⟩
          rintro ⟨frame, i, b, others, ⟨⟩, -, -, -, listed, -⟩
          cases described.symm.trans listed
      | some words =>
          rw [captures_iff described]
          unfold Activation.captured?
          dsimp only
          rw [Option.isSome_or, Bool.or_eq_true]
          refine or_congr_right ?_
          split <;> simp_all
    · rw [sets]
      have uncaptured : ¬Point.CapturesRegister ⟨.executes frame i, now⟩ s.toLineage n r := by
        rintro ⟨frame, i, b, words, ⟨⟩, closes, -⟩
        cases sets.symm.trans closes
      rw [or_iff_left uncaptured]
      dsimp only
      split
      · rename_i within
        by_cases same : Origin.register n r = a.upvalue i.b
        · have listed : frame.upvalues[i.b]? = some frame.upvalues[i.b] := Array.getElem?_eq_getElem within
          have there := told.cell_upvalue known runs listed
          rw [← same] at there ⊢
          rw [Function.update_self]
          exact iff_of_true rfl (told.valued there)
        · rw [Function.update_of_ne same]
      · rfl
  · rw [value_after captures, or_iff_left]
    rintro ⟨frame, i, a, words, executes, closes, -⟩
    exact captures ⟨frame, i, executes, .inl closes⟩

end Story.Told

namespace Machine.Interleaved

/-- Something was given to a register that was captured, and to no other, by induction over the points
that a run has come by.
-/
theorem captured_iff (life : Interleaved config log m) {later : List Point} (n r : Nat)
    (split : log = earlier ++ later)
    : ((Story.of earlier).value (.register n r)).isSome = true ↔ Captured earlier n r := by
  induction earlier using List.reverseRecOn generalizing later with
  | nil => exact iff_of_false nofun fun ⟨_, _, _, absurd, _⟩ => by simp at absurd
  | append_singleton earlier point ih =>
      rw [List.append_assoc] at split
      obtain ⟨⟨cell, told⟩, knows⟩ := life.told_at split
      rw [Story.of_append, told.value_after_isSome knows, captured_concat, ih split,
        Story.toLineage_of]

/-- A register is copied into a cell where an activation first captures it. A closure made later for the
same register of the same activation is given that cell, with what it holds then: what was last assigned
through it, if anything, and else the copy, whatever the register holds now.
-/
theorem captures_once (life : Interleaved config log m)
    : ∀ earlier here later, log = earlier ++ here :: later → here.CapturesOnce earlier := by
  intro earlier here later split frame i words executes described
  obtain ⟨⟨cell, told⟩, knows⟩ := life.told_at split
  have known := knows frame i executes
  obtain ⟨a, runs⟩ := Option.isSome_iff_exists.mp known.running
  have as := Vm.close_as { frame with pc := frame.pc + 1 } i here.machine
  rcases ran : Vm.close { frame with pc := frame.pc + 1 } i here.machine with ⟨next, after⟩ | ⟨halt, after⟩
  case error =>
    unfold Vm.descriptors? at described
    rw [ran] at described
    cases described
  rw [ran] at as
  cases as with
  | @closes now others cells middle _ ref listed takes unborn kept born =>
      have same := now.write_eq i.a (.closure ref)
      have past : (now.write i.a (.closure ref)).pc = frame.pc + 1 + others.length := by
        rw [same, takes.same]
      obtain rfl : words = others :=
        Option.some.inj (described.symm.trans (Vm.descriptors?_of_close listed ran past))
      rw [← Story.toLineage_of]
      refine ⟨a, ref, after, now, runs, fun _ => ran, unborn, fun k word found moves => ?_⟩
      obtain ⟨x, there, describes⟩ := exists_of_forall₂ takes.described.flip found
      have registers : cell (.register a.number word.b) = frame.captured.lookup word.b := by
        rw [told.registers runs, known.held]
        rfl
      have lookup : now.captured.lookup word.b = some x := (if_pos moves).mp describes
      have captured := life.captured_iff a.number word.b split
      refine ⟨x, ?_, fun first => ?_, fun again => ?_⟩
      · unfold Machine.cell?
        rw [born, Function.update_self]
        exact (List.getElem?_toArray ..).trans there
      · have unknown : frame.captured.lookup word.b = none := by
          cases before : cell (.register a.number word.b) with
          | none => exact registers ▸ before
          | some y => exact (first (captured.mp (told.valued before))).elim
        obtain ⟨new, holds, -⟩ := takes.takes unknown lookup
        exact ⟨new, kept ▸ holds⟩
      · cases before : cell (.register a.number word.b) with
        | none =>
            have absent := told.unvalued before
            rw [← captured, absent] at again
            cases again
        | some y =>
            obtain rfl : y = x :=
              Option.some.inj ((takes.keeps (registers ▸ before)).symm.trans lookup)
            refine ⟨told.bounded before, ?_, fun g l z there => ?_⟩
            · rw [kept]
              exact takes.extended.keeps (told.holds before)
            · rw [told.eq_iff before (told.cell_origin there), eq_comm]

end Machine.Interleaved

/-- Where a closure is made for registers, each of its cells holds what is in the register then. -/
def Point.Copies (point : Point) : Prop :=
  ∀ frame i words next after ref, point.mark = .executes frame i
    → Vm.descriptors? frame i point.machine = some words
    → Vm.close { frame with pc := frame.pc + 1 } i point.machine = .ok next after
    → next.read i.a = .closure ref → ∀ k word, words[k]? = some word → word.operation? = some .move
    → ∃ x, after.cell? ref k = some x ∧ after.cells[x.index]? = some (frame.read word.b)

/-- A closure is made at a point whose first cell does not hold what is in the register that the cell is
for: the two do not count alike.
-/
def Point.isStale (point : Point) : Bool :=
  match point.mark with
  | .executes frame i =>
      match Vm.close { frame with pc := frame.pc + 1 } i point.machine,
          Vm.descriptors? frame i point.machine with
      | .ok next after, some (word :: _) =>
          word.operation? = some .move
            && (next.read i.a).closure?.any fun ref => (after.cell? ref 0).any fun x =>
              (after.cells.getD x.index .nil).isTruthy != (frame.read word.b).isTruthy
      | _, _ => false
  | _ => false

theorem Point.not_copies_of_isStale (stale : point.isStale = true) : ¬point.Copies := by
  unfold isStale at stale
  split at stale
  case h_2 => cases stale
  rename_i frame i executes
  split at stale
  case h_2 => cases stale
  rename_i next after word rest ran described
  rw [Bool.and_eq_true, Option.any_eq_true] at stale
  obtain ⟨moves, ref, made, stale⟩ := stale
  obtain ⟨x, there, apart⟩ := (Option.any_eq_true _ _).mp stale
  intro copies
  have read : next.read i.a = .closure ref := by
    unfold Value.closure? at made
    split at made
    · cases made
      assumption
    · cases made
  obtain ⟨y, also, holds⟩ := copies frame i _ next after ref executes described ran read 0 word rfl
    (of_decide_eq_true moves)
  cases there.symm.trans also
  rw [Array.getD_eq_getD_getElem?, holds] at apart
  simp at apart

namespace Machine.Interleaved

/-- There is a point at which a closure is given a cell that does not hold what is in its register. -/
theorem recapture_isStale (start : Machine)
    (starts : start = { create 1 {} with context := ⟨0⟩, prototypes := {} })
    : ∃ here ∈ ⟨.left, start⟩ :: recapture.trace 10 start, here.isStale = true := by
  subst starts
  exact List.any_eq_true.mp (by decide +kernel)

/-- An activation captures a register twice, and assigns it in between. -/
theorem captures_once_again
    : ∃ (log : List Point) (m : Machine), Interleaved {} log m ∧ (∃ here ∈ log, here.isStale = true)
        ∧ ∀ earlier here later, log = earlier ++ here :: later → here.CapturesOnce earlier := by
  have start : Interleaved {} _ _ := .starts 1
  have life := start.session ⟨0⟩ {} 10 recapture
  exact ⟨_, _, life, recapture_isStale _ rfl, life.captures_once⟩

/-- A second closure for a register is given the cell of the first, which holds what was in the register
before it was assigned.
-/
theorem captures_stale
    : ∃ (log : List Point) (m : Machine), Interleaved {} log m ∧ ∃ here ∈ log, ¬here.Copies := by
  have start : Interleaved {} _ _ := .starts 1
  have life := start.session ⟨0⟩ {} 10 recapture
  obtain ⟨here, member, stale⟩ := recapture_isStale _ rfl
  exact ⟨_, _, life, here, member, Point.not_copies_of_isStale stale⟩

end Machine.Interleaved
end HookMachine
