import HookMachine.Proofs.Capture.Cells

/-!
Points at which a captured variable is assigned or registers are captured. Either way each variable goes
on to have a cell of its own, and that holds what it is given.
-/

namespace HookMachine

variable {s : Story} {cell : Origin → Option CellRef} {m after first : Machine} {frame : Frame}
  {i : Instruction}

/-- An instruction that calls nothing opens no activation. -/
theorem Point.opens?_of_op {op : Opcode} (operation : i.operation? = some op)
    (uncalled : op ≠ .call ∧ op ≠ .tailCall)
    : Point.opens? ⟨.executes frame i, m⟩ = none := by
  unfold Point.opens?
  dsimp only
  rw [operation]
  exact if_neg (by simpa using uncalled)

/-- A captured variable is assigned by writing its cell, if there is such a variable. -/
theorem Vm.setUpval_last (invoke : Invoke) (frame : Frame) (i : Instruction) (m : Machine)
    : (execute invoke frame .setUpval i m).last
      = match frame.upvalues[i.b]? with
        | some x => { m with cells := m.cells.setIfInBounds x.index (frame.read i.a) }
        | none => m := by
  unfold execute upvalue
  dsimp only
  cases frame.upvalues[i.b]? <;> rfl

/-- What an instruction comes to that neither calls, returns nor reaches a metamethod. -/
theorem Point.Does.executes {op : Opcode} (does : Point.Does ⟨.executes frame i, m⟩ first)
    (operation : i.operation? = some op) (captures : op = .closure ∨ op = .setUpval)
    : ∃ invoke, first = (Vm.execute invoke { frame with pc := frame.pc + 1 } op i m).last := by
  obtain ⟨resume, callers, rfl⟩ := does
  refine ⟨fun f arguments _ _ => Plan.noCall f arguments, ?_⟩
  rcases captures with rfl | rfl
  · exact Plan.head_advance_of_ends ⟨frame, resume⟩ callers operation (by decide) rfl
  · exact Plan.head_advance_of_ends ⟨frame, resume⟩ callers operation (by decide) rfl

namespace Story.Told

/-- What is given to variables by an instruction of an activation that is known. -/
theorem value_executes {a : Activation} (runs : s.executing frame = some a)
    : (s.after ⟨.executes frame i, m⟩).value = a.given frame i m s.value := by
  unfold Story.after Lineage.after
  dsimp only
  rw [runs]

/-- A variable is assigned: its cell holds that next, and no other cell does. -/
theorem assigns (told : s.Told cell m) (knows : s.Knows frame) (sets : i.operation? = some .setUpval)
    (does : Point.Does ⟨.executes frame i, m⟩ first)
    : (s.after ⟨.executes frame i, m⟩).Told cell first := by
  obtain ⟨a, runs⟩ := Option.isSome_iff_exists.mp knows.running
  have unclosed (other : Frame) (j : Instruction)
      (executes : Mark.executes frame i = .executes other j)
      : j.operation? ≠ some .closure := by
    cases executes
    rw [sets]
    nofun
  have unopened : Point.opens? ⟨.executes frame i, m⟩ = none := Point.opens?_of_op sets (by decide)
  have same := unopened_after unopened unclosed s
  have given : (s.after ⟨.executes frame i, m⟩).value = _ := value_executes runs
  unfold Activation.given at given
  rw [sets] at given
  dsimp only at given
  obtain ⟨invoke, rfl⟩ := does.executes sets (.inr rfl)
  rw [Vm.setUpval_last]
  dsimp only
  cases found : frame.upvalues[i.b]? with
  | none =>
      have within : ¬i.b < frame.upvalues.size := by simpa using found
      rw [if_neg within] at given
      refine told.stays same rfl (fun o x => ?_) (fun o => ?_) fun o => ?_ <;> rw [given]
      · exact told.holds
      · exact told.unvalued
      · exact id
  | some x =>
      have within := (Array.getElem?_eq_some_iff.mp found).1
      have held : (s.held (s.level, frame.depth)).upvalues[i.b]? = some x := by
        rw [knows.held]
        exact found
      have known : cell (a.upvalue i.b) = some x := told.activations runs held
      rw [if_pos within] at given
      refine told.stays same rfl (fun o y also => ?_) (fun o unknown => ?_) fun o valued => ?_
        <;> rw [given]
      · by_cases same : o = a.upvalue i.b
        · subst same
          cases known.symm.trans also
          rw [Function.update_self]
          exact Array.getElem?_setIfInBounds_self_of_lt (told.bounded known)
        · rw [Function.update_of_ne same]
          have elsewhere : x.index ≠ y.index := by
            intro is
            obtain rfl : x = y := congrArg CellRef.mk is
            exact same (told.apart also known)
          exact (Array.getElem?_setIfInBounds_ne elsewhere).trans (told.holds also)
      · rw [Function.update_of_ne]
        · exact told.unvalued unknown
        · rintro rfl
          cases known.symm.trans unknown
      · by_cases same : o = a.upvalue i.b
        · rw [same, Function.update_self]
          rfl
        · rw [Function.update_of_ne same]
          exact valued

end Story.Told

-----------------------------------------------------------------------------------------
-- Registers that are captured
-----------------------------------------------------------------------------------------

theorem Frame.write_eq (frame : Frame) (r : Nat) (value : Value)
    : frame.write r value = { frame with registers := (frame.write r value).registers } := by
  unfold write
  split <;> rfl

/-- The registers that an activation has captured have the cells that it has for them. -/
def granted (cell : Origin → Option CellRef) (n : Nat) (captured : List (Nat × CellRef))
    : Origin → Option CellRef
  | .register a r => if a = n then captured.lookup r else cell (.register a r)
  | .slot p f k => cell (.slot p f k)

variable {n : Nat} {now next : Frame} {words : List Instruction} {cells : List CellRef}
  {middle : Machine}

theorem granted_register (n : Nat) (captured : List (Nat × CellRef)) (r : Nat)
    : granted cell n captured (.register n r) = captured.lookup r :=
  if_pos rfl

theorem granted_of_ne {o : Origin} (other : ∀ r, o ≠ .register n r) (captured : List (Nat × CellRef))
    : granted cell n captured o = cell o := by
  cases o with
  | register a r => exact if_neg fun same => other r (by rw [same])
  | slot p f k => rfl

/-- A variable that is given a cell anew is a register that is captured. -/
theorem granted_eq_some {captured : List (Nat × CellRef)} {o : Origin} {x : CellRef}
    (unknown : cell o = none) (known : granted cell n captured o = some x)
    : ∃ r, o = .register n r ∧ captured.lookup r = some x := by
  by_cases is : ∃ r, o = .register n r
  · obtain ⟨r, rfl⟩ := is
    exact ⟨r, rfl, granted_register n captured r ▸ known⟩
  · rw [granted_of_ne (not_exists.mp is)] at known
    cases unknown.symm.trans known

theorem widens_granted (registers : ∀ r, cell (.register n r) = frame.captured.lookup r)
    (takes : frame.Takes now words cells m middle)
    : Widens cell (granted cell n now.captured) m.cells.size where
  keeps {o x} known := by
    by_cases is : ∃ r, o = .register n r
    · obtain ⟨r, rfl⟩ := is
      rw [granted_register]
      exact takes.keeps (registers r ▸ known)
    · rwa [granted_of_ne (not_exists.mp is)]
  beyond unknown known := by
    obtain ⟨r, rfl, captured⟩ := granted_eq_some unknown known
    exact (takes.takes (registers r ▸ unknown) captured).1
  apart unknown also_unknown known also_known := by
    obtain ⟨r, rfl, captured⟩ := granted_eq_some unknown known
    obtain ⟨t, rfl, also_captured⟩ := granted_eq_some also_unknown also_known
    rw [takes.apart (registers r ▸ unknown) (registers t ▸ also_unknown) captured also_captured]

/-- The words that describe what is captured, where a closure is made. -/
theorem Vm.descriptors?_of_close
    (described : (frame.code.toList.drop (frame.pc + 1)).take words.length = words)
    (ran : close { frame with pc := frame.pc + 1 } i m = .ok next after)
    (past : next.pc = frame.pc + 1 + words.length)
    : descriptors? frame i m = some words := by
  unfold descriptors?
  rw [ran]
  dsimp only
  rw [past, Nat.add_sub_cancel_left, described]

/-- What is known past an instruction that makes a closure. -/
structure Story.Closes (s later : Story) (frame now : Frame) (a : Activation) (words : List Instruction)
    (ref : ClosureRef) (m : Machine)
    : Prop where
  points : later.points = s.points + 1
  running : later.running = s.running
  held : later.held = Function.update s.held (s.level, frame.depth) now.holdings
  value o : later.value o = (s.value o).or (a.captured? frame words o)
  kept {other upvalues}
    : m.upvalues? other = some upvalues → later.origin other = s.origin other
  born k : later.origin ref k = (words[k]?.map a.described).getD (.slot s.points ref k)

/-- What the other has by which an element of a list is related, in lists that are related. -/
theorem exists_of_forall₂ {α β : Type} {R : α → β → Prop} {list : List α} {others : List β}
    (related : List.Forall₂ R list others) {k : Nat} {b : β} (listed : others[k]? = some b)
    : ∃ a, list[k]? = some a ∧ R a b := by
  obtain ⟨bound, rfl⟩ := List.getElem?_eq_some_iff.mp listed
  obtain ⟨long, pairs⟩ := List.forall₂_iff_get.mp related
  have within : k < list.length := long ▸ bound
  exact ⟨list[k], List.getElem?_eq_getElem within, pairs k within bound⟩

namespace Story.Told

section

variable {later : Story} {a : Activation} {past : Frame} {ref : ClosureRef}
  (told : s.Told cell m) (knows : s.Knows frame) (runs : s.executing frame = some a)
  (same : past.holdings = frame.holdings)

include told knows runs same

theorem registers_past (r : Nat) : cell (.register a.number r) = past.captured.lookup r := by
  rw [told.registers runs, knows.held, ← same]
  rfl

variable (takes : past.Takes now words cells m middle)

include takes

theorem widens_past : Widens cell (granted cell a.number now.captured) m.cells.size :=
  widens_granted (told.registers_past knows runs same) takes

/-- A word describes the cell of the variable that it describes. -/
theorem described_past {word : Instruction} {x : CellRef} (describes : now.Describes word x)
    : granted cell a.number now.captured (a.described word) = some x := by
  unfold Frame.Describes at describes
  unfold Activation.described
  split <;> rename_i moves
  · rw [if_pos moves] at describes
    rwa [granted_register]
  · rw [if_neg moves] at describes
    have upvalues : now.upvalues = frame.upvalues := by
      rw [takes.same]
      exact congrArg Holdings.upvalues same
    refine (told.widens_past knows runs same takes).keeps (told.activations runs ?_)
    rw [knows.held]
    exact (congrArg (·[word.b]?) upvalues).symm.trans describes

section

variable (made : s.Closes later frame now a words ref m)

include made

section

variable (read : past.read = frame.read)

include read

/-- A variable that is given a cell is a register, of which the cell holds the value. -/
theorem captured_holds {o : Origin} {x : CellRef} (unknown : cell o = none)
    (known : granted cell a.number now.captured o = some x)
    : middle.cells[x.index]? = later.value o ∧ (later.value o).isSome := by
  have registers := told.registers_past knows runs same
  obtain ⟨r, rfl, captured⟩ := granted_eq_some unknown known
  obtain ⟨-, holds, among⟩ := takes.takes (registers r ▸ unknown) captured
  rw [made.value, told.unvalued unknown, holds, read]
  unfold Activation.captured?
  dsimp only
  rw [if_pos ⟨rfl, among⟩]
  exact ⟨rfl, rfl⟩

theorem granted_holds {o : Origin} {x : CellRef}
    (known : granted cell a.number now.captured o = some x)
    : middle.cells[x.index]? = some ((later.value o).getD .nil) := by
  have widens := told.widens_past knows runs same takes
  cases before : cell o with
  | none =>
      obtain ⟨holds, given⟩ := told.captured_holds knows runs same takes made read before known
      obtain ⟨value, is⟩ := Option.isSome_iff_exists.mp given
      rw [holds, is]
      rfl
  | some held =>
      cases (widens.keeps before).symm.trans known
      rw [takes.extended.keeps (told.holds before), made.value]
      cases given : s.value o with
      | some value => rfl
      | none =>
          cases o with
          | register => exact nomatch given ▸ told.valued before
          | slot => rfl

end

/-- The closure that is made has the cells that its words describe, and others have what they had. -/
theorem granted_closures {other : ClosureRef} {upvalues : Array CellRef} {k : Nat} {x : CellRef}
    (there : Function.update m.upvalues? ref (some cells.toArray) other = some upvalues)
    (listed : upvalues[k]? = some x)
    : granted cell a.number now.captured (later.origin other k) = some x := by
  by_cases is : other = ref
  · subst is
    rw [Function.update_self] at there
    cases there
    rw [List.getElem?_toArray] at listed
    obtain ⟨word, found, describes⟩ := exists_of_forall₂ takes.described listed
    rw [made.born, found]
    exact told.described_past knows runs same takes describes
  · rw [Function.update_of_ne is] at there
    rw [made.kept there]
    exact (told.widens_past knows runs same takes).keeps (told.closures there listed)

omit told runs in
/-- Activations go on with the cells that they have. -/
theorem upvalues_closes (key : Nat × Nat) : (later.held key).upvalues = (s.held key).upvalues := by
  rw [made.held]
  by_cases is : key = (s.level, frame.depth)
  · rw [is, Function.update_self, knows.held, ← same]
    change now.upvalues = past.upvalues
    rw [takes.same]
  · rw [Function.update_of_ne is]

omit knows same takes in
theorem granted_registers {key : Nat × Nat} {b : Activation} (running : s.running key = some b) (r : Nat)
    : granted cell a.number now.captured (.register b.number r) = (later.held key).captured.lookup r := by
  rw [made.held]
  by_cases is : key = (s.level, frame.depth)
  · subst is
    obtain rfl : b = a := Option.some.inj (running.symm.trans runs)
    rw [Function.update_self, granted_register]
    rfl
  · rw [Function.update_of_ne is, granted_of_ne]
    · exact told.registers running r
    · exact fun _ same => is (told.distinct running runs (Origin.register.inj same).1)

theorem unvalued_closes {o : Origin} (unknown : granted cell a.number now.captured o = none)
    : later.value o = none := by
  have before : cell o = none := by
    cases before : cell o with
    | none => rfl
    | some held =>
        cases unknown.symm.trans ((told.widens_past knows runs same takes).keeps before)
  rw [made.value, told.unvalued before, Option.none_or]
  cases o with
  | slot => rfl
  | register p r =>
      refine if_neg fun ⟨own, among⟩ => ?_
      subst own
      rw [granted_register] at unknown
      obtain ⟨word, listed, names⟩ := List.any_eq_true.mp among
      obtain ⟨moves, rfl⟩ : word.operation? = some .move ∧ word.b = r := by
        simpa [Instruction.describes] using names
      obtain ⟨k, found⟩ := List.getElem?_of_mem listed
      obtain ⟨x, -, describes⟩ := exists_of_forall₂ takes.described.flip found
      cases unknown.symm.trans ((if_pos moves).mp describes)

/-- An activation captures registers and makes a closure. -/
theorem closes (read : past.read = frame.read) (kept : after.cells = middle.cells)
    (born : after.upvalues? = Function.update m.upvalues? ref (some cells.toArray))
    : later.Told (granted cell a.number now.captured) after := by
  have widens := told.widens_past knows runs same takes
  constructor
  case apart => exact told.apart_of_widens widens
  case holds => exact fun known => kept ▸ told.granted_holds knows runs same takes made read known
  case closures =>
    intro other upvalues k x there listed
    rw [born] at there
    exact told.granted_closures knows runs same takes made there listed
  case activations =>
    intro key b k x running known
    rw [made.running] at running
    rw [upvalues_closes knows same takes made] at known
    exact widens.keeps (told.activations running known)
  case registers => exact fun running => told.granted_registers runs made (made.running ▸ running)
  case unvalued => exact told.unvalued_closes knows runs same takes made
  case valued =>
    intro p r x known
    cases before : cell (.register p r) with
    | none => exact (told.captured_holds knows runs same takes made read before known).2
    | some held =>
        rw [made.value, Option.isSome_or, told.valued before]
        rfl
  case numbered =>
    intro key b running
    rw [made.running] at running
    rw [made.points]
    exact Nat.lt_succ_of_lt (told.numbered running)
  case distinct => exact made.running ▸ told.distinct
  case upcoming =>
    intro p later
    rw [made.points] at later
    obtain ⟨registers, slots⟩ := told.upcoming (Nat.le_of_succ_le later)
    refine ⟨fun r => ?_, slots⟩
    rw [granted_of_ne]
    · exact registers r
    · rintro t ⟨⟩
      exact Nat.lt_irrefl _ (Nat.lt_trans (told.numbered runs) later)

end

end

/-- What is known where an activation makes a closure. -/
theorem closes_after {a : Activation} {ref : ClosureRef} (runs : s.executing frame = some a)
    (closes : i.operation? = some .closure)
    (ran : Vm.close { frame with pc := frame.pc + 1 } i m = .ok next after)
    (describes : Vm.descriptors? frame i m = some words) (holdings : next.holdings = now.holdings)
    (unborn : m.upvalues? ref = none)
    : s.Closes (s.after ⟨.executes frame i, m⟩) frame now a words ref m := by
  have unopened : Point.opens? ⟨.executes frame i, m⟩ = none := Point.opens?_of_op closes (by decide)
  have given : (s.after ⟨.executes frame i, m⟩).value = _ := value_executes runs
  unfold Activation.given at given
  rw [closes, describes] at given
  constructor
  case points => rfl
  case running =>
    unfold Story.after Lineage.after
    rw [unopened]
  case held =>
    unfold Story.after
    rw [unopened]
    dsimp only
    rw [if_pos closes, ran, ← holdings]
  case value => exact congrFun given
  case kept => exact fun there => origin_after there
  case born =>
    intro k
    have unasked : Point.copied? ⟨.executes frame i, m⟩ = none := by
      refine Point.copied?_of_apart (fun _ => Mark.noConfusion) fun n arguments passes => ?_
      exact absurd (closes ▸ passes.1) (by decide)
    rw [origin_after_of_none unborn]
    unfold Lineage.born Lineage.described?
    rw [unasked]
    dsimp only
    rw [if_pos closes, runs, describes]
    rfl

/-- An activation makes a closure, or fails to: each register that it captures has a cell next. -/
theorem captures (told : s.Told cell m) (knows : s.Knows frame)
    (closes : i.operation? = some .closure) (does : Point.Does ⟨.executes frame i, m⟩ first)
    : ∃ wider, (s.after ⟨.executes frame i, m⟩).Told wider first := by
  obtain ⟨a, runs⟩ := Option.isSome_iff_exists.mp knows.running
  obtain ⟨invoke, rfl⟩ := does.executes closes (.inl rfl)
  change ∃ wider, (s.after ⟨.executes frame i, m⟩).Told wider (Vm.close _ i m).last
  have as := Vm.close_as { frame with pc := frame.pc + 1 } i m
  rcases ran : Vm.close { frame with pc := frame.pc + 1 } i m with ⟨next, after⟩ | ⟨halt, after⟩
    <;> rw [ran] at as
  · cases as with
    | @closes now words _ _ _ ref described takes unborn kept born =>
        have same := now.write_eq i.a (.closure ref)
        have past : (now.write i.a (.closure ref)).pc = frame.pc + 1 + words.length := by
          rw [same, takes.same]
        have holdings : (now.write i.a (.closure ref)).holdings = now.holdings := by
          rw [same]
          rfl
        have describes := Vm.descriptors?_of_close described ran past
        have later := closes_after runs closes ran describes holdings unborn
        have held : Frame.holdings { frame with pc := frame.pc + 1 } = frame.holdings := rfl
        exact ⟨_, told.closes knows runs held takes later rfl kept born⟩
  · cases as with
    | fails extended =>
        have undescribed : Vm.descriptors? frame i m = none := by
          unfold Vm.descriptors?
          rw [ran]
        have given : (s.after ⟨.executes frame i, m⟩).value = _ := value_executes runs
        unfold Activation.given at given
        rw [closes, undescribed] at given
        dsimp only at given
        have same : (s.after ⟨.executes frame i, m⟩).running = s.running
            ∧ (s.after ⟨.executes frame i, m⟩).held = s.held := by
          have unopened : Point.opens? ⟨.executes frame i, m⟩ = none :=
            Point.opens?_of_op closes (by decide)
          unfold Story.after Lineage.after
          rw [unopened]
          refine ⟨rfl, ?_⟩
          dsimp only
          rw [if_pos closes, ran]
        refine ⟨cell, told.stays same extended.upvalues (fun o x known => ?_) (fun o => ?_) fun o => ?_⟩
          <;> rw [given]
        · exact extended.keeps (told.holds known)
        · exact told.unvalued
        · exact id

end Story.Told
end HookMachine
