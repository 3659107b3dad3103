import HookMachine.Proofs.Capture.Births

/-!
What an instruction captures that makes a closure: which cells the closure is given, and which of them
are new. A register that the activation captured before keeps its cell and is not copied again.
-/

namespace HookMachine

open Machine (Lenient)
open Run (Looks Follows)

variable {m middle after : Machine} {frame now next : Frame} {i word : Instruction}

-----------------------------------------------------------------------------------------
-- Cells that are added
-----------------------------------------------------------------------------------------

/-- Cells may be added, and closures have the cells that they had. -/
structure Machine.Extends (m after : Machine) : Prop where
  cells : ∃ more, after.cells = m.cells ++ more
  upvalues : after.upvalues? = m.upvalues?

namespace Machine

theorem Upholds.extends (upholds : m.Upholds after) : m.Extends after :=
  ⟨⟨#[], by simpa using upholds.cells⟩, upholds.upvalues⟩

instance : Lenient Extends where
  refl m := (Upholds.refl m).extends
  trans first rest := by
    obtain ⟨more, first_cells⟩ := first.cells
    obtain ⟨others, rest_cells⟩ := rest.cells
    refine ⟨⟨more ++ others, ?_⟩, rest.upvalues.trans first.upvalues⟩
    rw [rest_cells, first_cells, Array.append_assoc]
  aside _ closures _ cells _ := (Upholds.of_same cells closures).extends
  tables _ := Upholds.extends (.of_same rfl rfl)
  natives _ := Upholds.extends (.of_same rfl rfl)
  redirected handle redirect := (Upholds.redirected handle redirect).extends

/-- A cell that is there goes on to hold what it does. -/
theorem Extends.keeps (extended : m.Extends after) {k : Nat} {value : Value}
    (held : m.cells[k]? = some value)
    : after.cells[k]? = some value := by
  obtain ⟨more, same⟩ := extended.cells
  obtain ⟨bound, -⟩ := Array.getElem?_eq_some_iff.mp held
  rwa [same, Array.getElem?_append_left bound]

end Machine

theorem Vm.newCell_extends (value : Value) : Follows Machine.Extends (newCell value) :=
  .modifyGet fun _ => ⟨⟨#[value], Array.push_eq_append⟩, rfl⟩

-----------------------------------------------------------------------------------------
-- What is captured
-----------------------------------------------------------------------------------------

/-- A word describes a cell: of a register that is captured, or of the closure that runs. -/
def Frame.Describes (frame : Frame) (word : Instruction) (cell : CellRef) : Prop :=
  if word.operation? = some .move then
    frame.captured.lookup word.b = some cell
  else
    frame.upvalues[word.b]? = some cell

/-- An activation goes past words that describe cells: those of registers that were not captured before
are new and hold what is in the registers.
-/
structure Frame.Takes (frame next : Frame) (words : List Instruction) (cells : List CellRef)
    (m after : Machine)
    : Prop where
  same : next = { frame with pc := frame.pc + words.length, captured := next.captured }
  extended : m.Extends after
  described : List.Forall₂ next.Describes words cells
  keeps {r cell} : frame.captured.lookup r = some cell → next.captured.lookup r = some cell
  takes {r cell}
    : frame.captured.lookup r = none → next.captured.lookup r = some cell
      → m.cells.size ≤ cell.index ∧ after.cells[cell.index]? = some (frame.read r)
        ∧ words.any (·.describes r) = true
  apart {r s cell}
    : frame.captured.lookup r = none → frame.captured.lookup s = none
      → next.captured.lookup r = some cell → next.captured.lookup s = some cell → r = s

namespace Frame.Takes

theorem nil (frame : Frame) (m : Machine) : frame.Takes frame [] [] m m where
  same := rfl
  extended := Lenient.refl m
  described := .nil
  keeps := id
  takes unknown known := absurd (unknown.symm.trans known) nofun
  apart unknown _ known _ := absurd (unknown.symm.trans known) nofun

/-- A register that is captured anew has a cell beyond those that were there. -/
theorem append {words more : List Instruction} {cells others : List CellRef}
    (first : frame.Takes now words cells m middle) (rest : now.Takes next more others middle after)
    : frame.Takes next (words ++ more) (cells ++ others) m after := by
  have upvalues : next.upvalues = now.upvalues := by rw [rest.same]
  have read (r : Nat) : now.read r = frame.read r := by
    rw [first.same]
    rfl
  have sizes : m.cells.size ≤ middle.cells.size := by
    obtain ⟨added, same⟩ := first.extended.cells
    rw [same, Array.size_append]
    exact Nat.le_add_right ..
  have below {r : Nat} {cell : CellRef} (unknown : frame.captured.lookup r = none)
      (known : now.captured.lookup r = some cell)
      : cell.index < middle.cells.size :=
    (Array.getElem?_eq_some_iff.mp (first.takes unknown known).2.1).1
  constructor
  case same =>
    rw [rest.same, first.same, List.length_append, Nat.add_assoc]
  case extended => exact Lenient.trans first.extended rest.extended
  case described =>
    refine List.rel_append (first.described.imp fun word cell describes => ?_) rest.described
    unfold Describes at describes ⊢
    split <;> rename_i moves
    · rw [if_pos moves] at describes
      exact rest.keeps describes
    · rw [if_neg moves] at describes
      rwa [upvalues]
  case keeps => exact fun known => rest.keeps (first.keeps known)
  case takes =>
    intro r cell unknown known
    cases between : now.captured.lookup r with
    | none =>
        obtain ⟨new, holds, among⟩ := rest.takes between known
        refine ⟨Nat.le_trans sizes new, read r ▸ holds, ?_⟩
        rw [List.any_append, among, Bool.or_true]
    | some held =>
        cases (rest.keeps between).symm.trans known
        obtain ⟨new, holds, among⟩ := first.takes unknown between
        refine ⟨new, rest.extended.keeps holds, ?_⟩
        rw [List.any_append, among, Bool.true_or]
  case apart =>
    intro r s cell unknown also_unknown known also_known
    cases between : now.captured.lookup r <;> cases also_between : now.captured.lookup s
    case none.none => exact rest.apart between also_between known also_known
    case none.some =>
      cases (rest.keeps also_between).symm.trans also_known
      exact absurd (below also_unknown also_between) (Nat.not_lt.mpr (rest.takes between known).1)
    case some.none =>
      cases (rest.keeps between).symm.trans known
      exact absurd (below unknown between)
        (Nat.not_lt.mpr (rest.takes also_between also_known).1)
    case some.some =>
      cases (rest.keeps between).symm.trans known
      cases (rest.keeps also_between).symm.trans also_known
      exact first.apart unknown also_unknown between also_between

/-- A word describes a cell that is there. -/
theorem past {cell : CellRef} (describes : frame.Describes word cell) (m : Machine)
    : frame.Takes { frame with pc := frame.pc + 1 } [word] [cell] m m where
  same := rfl
  extended := Lenient.refl m
  described := .cons describes .nil
  keeps := id
  takes unknown known := absurd (unknown.symm.trans known) nofun
  apart unknown _ known _ := absurd (unknown.symm.trans known) nofun

/-- One register is captured that was not before. -/
theorem single (moves : word.operation? = some .move)
    (unknown : frame.captured.lookup word.b = none) (m : Machine)
    : frame.Takes
        { frame with
          pc := frame.pc + 1, captured := (word.b, ⟨m.cells.size⟩) :: frame.captured }
        [word] [⟨m.cells.size⟩] m { m with cells := m.cells.push (frame.read word.b) } := by
  have lookup (r : Nat)
      : List.lookup r ((word.b, ⟨m.cells.size⟩) :: frame.captured)
        = if r = word.b then some ⟨m.cells.size⟩ else frame.captured.lookup r := by
    rw [List.lookup_cons]
    split <;> simp_all
  constructor
  case same => rfl
  case extended => exact (Vm.newCell_extends _).outcome m
  case described => exact .cons ((if_pos moves).mpr ((lookup _).trans (if_pos rfl))) .nil
  case keeps =>
    intro r cell known
    rw [lookup, if_neg]
    · exact known
    · rintro rfl
      cases unknown.symm.trans known
  case takes =>
    intro r cell unknown known
    rw [lookup] at known
    split at known
    · rename_i same
      subst same
      cases known
      refine ⟨Nat.le_refl _, Array.getElem?_push_size, ?_⟩
      simp [Instruction.describes, moves]
    · cases unknown.symm.trans known
  case apart =>
    intro r s cell unknown also_unknown known also_known
    rw [lookup] at known also_known
    split at known
    · rename_i same
      split at also_known
      · rename_i also_same
        exact same.trans also_same.symm
      · cases also_unknown.symm.trans also_known
    · cases unknown.symm.trans known

end Frame.Takes

namespace Vm

theorem upvalue_ok {k : Nat} {cell : CellRef} (looked : upvalue frame k m = .ok cell after)
    : frame.upvalues[k]? = some cell := by
  unfold upvalue at looked
  rcases found : frame.upvalues[k]? with _ | held <;> rw [found] at looked <;> cases looked
  rfl

/-- A register is copied into a new cell unless it was captured before. -/
theorem capture_takes {cell : CellRef}
    (ran : capture { frame with pc := frame.pc + 1 } word m = .ok (next, cell) after)
    : frame.Takes next [word] [cell] m after := by
  unfold capture at ran
  rcases operation : word.operation? with _ | op <;> rw [operation] at ran
  · cases ran
  cases op with
  | move =>
      dsimp only at ran
      rcases known : frame.captured.lookup word.b with _ | held <;> rw [known] at ran
      · cases ran
        exact .single operation known m
      · cases ran
        exact .past ((if_pos operation).mpr known) m
  | getUpval =>
      obtain ⟨held, last, looked, ends⟩ := Run.of_bind_ok ran
      obtain rfl := (upvalue_looks _ _).ok looked
      cases ends
      have stays : word.operation? ≠ some .move := fun moves => nomatch operation.symm.trans moves
      have found := upvalue_ok looked
      have describes : frame.Describes word cell := (if_neg stays).mpr found
      exact .past describes _
  | _ => cases ran

/-- By induction over how many words describe what is captured. -/
theorem captures_takes {count : Nat} {cells : List CellRef}
    (ran : captures count frame m = .ok (next, cells) after)
    : ((frame.code.toList.drop frame.pc).take count).length = count
      ∧ frame.Takes next ((frame.code.toList.drop frame.pc).take count) cells m after := by
  induction count generalizing frame cells m with
  | zero =>
      cases ran
      exact ⟨rfl, .nil _ _⟩
  | succ count ih =>
      unfold captures at ran
      rcases found : frame.code[frame.pc]? with _ | word <;> rw [found] at ran
      · cases ran
      obtain ⟨⟨now, cell⟩, middle, captured, further⟩ := Run.of_bind_ok ran
      obtain ⟨⟨last, others⟩, final, rest, ends⟩ := Run.of_bind_ok further
      cases ends
      have first := capture_takes captured
      obtain ⟨long, takes⟩ := ih rest
      have code : now.code = frame.code := by rw [first.same]
      have pc : now.pc = frame.pc + 1 := by
        rw [first.same]
        rfl
      rw [code, pc] at long takes
      have words : (frame.code.toList.drop frame.pc).take (count + 1)
          = [word] ++ (frame.code.toList.drop (frame.pc + 1)).take count := by
        rw [← Array.getElem?_toList, List.getElem?_eq_some_iff] at found
        obtain ⟨bound, rfl⟩ := found
        rw [List.drop_eq_getElem_cons bound]
        rfl
      rw [words]
      exact ⟨congrArg (· + 1) long, first.append takes⟩

-----------------------------------------------------------------------------------------
-- Closures that activations make
-----------------------------------------------------------------------------------------

theorem capture_extends (frame : Frame) (word : Instruction)
    : Follows Machine.Extends (capture frame word) := by
  unfold capture
  split
  · split
    · exact .pure _
    · exact (newCell_extends _).andThen fun _ => .pure _
  · exact .andThen (.looks (upvalue_looks frame _)) fun _ => .pure _
  · exact .fail _

theorem captures_extends (count : Nat) (frame : Frame)
    : Follows Machine.Extends (captures count frame) := by
  induction count generalizing frame with
  | zero => exact .pure _
  | succ count ih =>
      unfold captures
      split
      · exact .fail _
      · exact (capture_extends _ _).andThen fun first => (ih first.1).andThen fun _ => .pure _

/-- What an instruction comes to that makes a closure: the closure is given the cells that the words
after the instruction describe, or it is not made.
-/
inductive Closing (frame : Frame) (i : Instruction) (m : Machine)
    : EStateM.Result (Halt Fault) Machine Frame → Prop
  | fails {halt : Halt Fault} {after : Machine} (extended : m.Extends after)
    : Closing frame i m (.error halt after)
  | closes {now : Frame} {words : List Instruction} {cells : List CellRef} {middle after : Machine}
    {ref : ClosureRef} (described : (frame.code.toList.drop frame.pc).take words.length = words)
    (takes : frame.Takes now words cells m middle) (unborn : m.upvalues? ref = none)
    (kept : after.cells = middle.cells)
    (born : after.upvalues? = Function.update m.upvalues? ref (some cells.toArray))
    : Closing frame i m (.ok (now.write i.a (.closure ref)) after)

theorem close_as (frame : Frame) (i : Instruction) (m : Machine)
    : Closing frame i m (close frame i m) := by
  have looked (ref : PrototypeRef) : prototype ref m = .ok (m.prototypes.get ref) m := rfl
  unfold close
  rw [Run.bind_ok (looked _)]
  cases (m.prototypes.get frame.prototype).nested[i.bx]? with
  | none => exact .fails (Lenient.refl m)
  | some nested =>
      dsimp only
      rw [Run.bind_ok (looked _)]
      have extended := (captures_extends (m.prototypes.get nested).upvalues.toNat frame).outcome m
      rcases ran : captures (m.prototypes.get nested).upvalues.toNat frame m with
        ⟨⟨now, cells⟩, middle⟩ | ⟨halt, middle⟩ <;> rw [ran] at extended
      · rw [Run.bind_ok ran]
        obtain ⟨long, takes⟩ := captures_takes ran
        obtain ⟨ref, made, unborn, kept, born⟩ := newClosure_born
          { prototype := nested, upvalues := cells.toArray, environment := now.environment } middle
        rw [Run.bind_ok made]
        rw [takes.extended.upvalues] at unborn born
        exact .closes (by rw [long]) takes unborn kept born
      · rw [Run.bind_error ran]
        exact .fails extended

end Vm
end HookMachine
