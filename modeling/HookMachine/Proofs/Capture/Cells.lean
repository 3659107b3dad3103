import HookMachine.Proofs.Capture.Story

/-!
Captured variables and their cells: at every point of a run each variable that a lineage tells of has a
cell of its own, and that holds what the lineage says.
-/

namespace HookMachine

variable {s : Story} {cell : Origin → Option CellRef} {m after first : Machine} {point : Point}

/-- Each captured variable has a cell of its own, by which closures and activations know it, and that holds
what it should.
-/
structure Story.Told (s : Story) (cell : Origin → Option CellRef) (m : Machine) : Prop where
  apart {o other x} : cell o = some x → cell other = some x → o = other
  holds {o x} : cell o = some x → m.cells[x.index]? = some ((s.value o).getD .nil)
  closures {ref upvalues k x}
    : m.upvalues? ref = some upvalues → upvalues[k]? = some x → cell (s.origin ref k) = some x
  activations {key a k x}
    : s.running key = some a → (s.held key).upvalues[k]? = some x → cell (a.upvalue k) = some x
  registers {key a}
    : s.running key = some a → ∀ r, cell (.register a.number r) = (s.held key).captured.lookup r
  unvalued {o} : cell o = none → s.value o = none
  valued {n r x} : cell (.register n r) = some x → (s.value (.register n r)).isSome
  numbered {key a} : s.running key = some a → a.number < s.points
  distinct {key other a b}
    : s.running key = some a → s.running other = some b → a.number = b.number → key = other
  /-- Nothing is known yet of what points to come will make. -/
  upcoming {n} (later : s.points ≤ n)
    : (∀ r, cell (.register n r) = none) ∧ ∀ ref k, cell (.slot n ref k) = none

namespace Story.Told

/-- Closures may be gone. -/
theorem shrinks (told : s.Told cell m) (cells : after.cells = m.cells)
    (kept : ∀ ref upvalues, after.upvalues? ref = some upvalues → m.upvalues? ref = some upvalues)
    : s.Told cell after :=
  { told with
    holds := fun known => cells ▸ told.holds known
    closures := fun there => told.closures (kept _ _ there) }

theorem upholds (told : s.Told cell m) (upholds : m.Upholds after) : s.Told cell after :=
  told.shrinks upholds.cells fun ref _ there => congrFun upholds.upvalues ref ▸ there

-----------------------------------------------------------------------------------------
-- Points that capture and assign nothing
-----------------------------------------------------------------------------------------

/-- What is known does not change where nothing is captured. -/
theorem value_after (uncaptured : ¬point.Captures) : (s.after point).value = s.value := by
  unfold Story.after Lineage.after
  dsimp only
  split
  · rename_i frame i executes
    split
    · rename_i activation _
      unfold Activation.given
      split
      · rename_i sets
        exact (uncaptured ⟨frame, i, executes, .inr sets⟩).elim
      · rename_i closes
        exact (uncaptured ⟨frame, i, executes, .inl closes⟩).elim
      · rfl
    · rfl
  · rfl

theorem origin_after {ref : ClosureRef} {upvalues : Array CellRef}
    (there : point.machine.upvalues? ref = some upvalues)
    : (s.after point).origin ref = s.origin ref := by
  have live : point.machine.heap.isLive (.closure ref) = true := by
    rw [← Bool.not_eq_false, ← Machine.upvalues?_eq_none, there]
    nofun
  exact if_pos live

theorem origin_after_of_none {ref : ClosureRef} (unborn : point.machine.upvalues? ref = none)
    : (s.after point).origin ref = s.born point ref := by
  rw [Machine.upvalues?_eq_none] at unborn
  exact if_neg (by rw [unborn]; nofun)

/-- What is known of an activation where it is opened. -/
theorem opened_after {ref : ClosureRef} {d : Nat} (opens : point.opens? = some (ref, d)) (s : Story)
    : (s.after point).running
        = Function.update s.running (s.level, d)
          (some { number := s.points, upvalue := s.origin ref })
      ∧ (s.after point).held
        = Function.update s.held (s.level, d) ⟨[], (point.machine.upvalues? ref).getD #[]⟩ := by
  unfold Story.after Lineage.after
  rw [opens]
  exact ⟨rfl, rfl⟩

/-- Past a point that opens an activation it is that one that is known at its depth, and the ones that were
known before elsewhere.
-/
theorem activation_after {ref : ClosureRef} {d : Nat} {key : Nat × Nat} {a : Activation}
    (opens : point.opens? = some (ref, d)) (runs : (s.after point).running key = some a)
    : (key = (s.level, d) ∧ a = { number := s.points, upvalue := s.origin ref }
        ∧ (s.after point).held key = ⟨[], (point.machine.upvalues? ref).getD #[]⟩)
      ∨ key ≠ (s.level, d) ∧ s.running key = some a ∧ (s.after point).held key = s.held key := by
  obtain ⟨running, held⟩ := opened_after opens s
  rw [running] at runs
  rw [held]
  by_cases same : key = (s.level, d)
  · subst same
    rw [Function.update_self] at runs ⊢
    cases runs
    exact .inl ⟨rfl, rfl, rfl⟩
  · rw [Function.update_of_ne same] at runs ⊢
    exact .inr ⟨same, runs, rfl⟩

theorem unopened_after (unopened : point.opens? = none)
    (unclosed : ∀ frame i, point.mark = .executes frame i → i.operation? ≠ some .closure) (s : Story)
    : (s.after point).running = s.running ∧ (s.after point).held = s.held := by
  unfold Story.after Lineage.after
  rw [unopened]
  refine ⟨rfl, ?_⟩
  dsimp only
  split
  · contradiction
  · rename_i frame i _ executes
    exact if_neg (unclosed frame i executes)
  · rfl

/-- Where nothing changes of what is known of activations, it is for variables and their cells alone to
go on as they should.
-/
theorem stays (told : s.Told cell point.machine)
    (same : (s.after point).running = s.running ∧ (s.after point).held = s.held)
    (upvalues : after.upvalues? = point.machine.upvalues?)
    (holds : ∀ o x, cell o = some x
      → after.cells[x.index]? = some (((s.after point).value o).getD .nil))
    (unvalued : ∀ o, cell o = none → (s.after point).value o = none)
    (valued : ∀ o, (s.value o).isSome → ((s.after point).value o).isSome)
    : (s.after point).Told cell after := by
  obtain ⟨running, held⟩ := same
  constructor
  case apart => exact told.apart
  case holds => exact holds _ _
  case closures =>
    intro ref cells k x there known
    rw [upvalues] at there
    rw [origin_after there]
    exact told.closures there known
  case activations => exact running ▸ held ▸ told.activations
  case registers => exact running ▸ held ▸ told.registers
  case unvalued => exact unvalued _
  case valued => exact fun known => valued _ (told.valued known)
  case numbered => exact fun runs => Nat.lt_succ_of_lt (told.numbered (running ▸ runs))
  case distinct => exact running ▸ told.distinct
  case upcoming => exact fun later => told.upcoming (Nat.le_of_succ_le later)

/-- Where nothing is captured nothing changes of what is known of cells. -/
theorem pass (told : s.Told cell point.machine) (uncaptured : ¬point.Captures)
    : (s.after point).Told cell point.machine := by
  have value := value_after (s := s) uncaptured
  have upcoming {n : Nat} (later : (s.after point).points ≤ n) := told.upcoming (Nat.le_of_succ_le later)
  have closures {ref upvalues k x} (there : point.machine.upvalues? ref = some upvalues)
      (known : upvalues[k]? = some x)
      : cell ((s.after point).origin ref k) = some x := by
    rw [origin_after there]
    exact told.closures there known
  rcases opens : point.opens? with _ | ⟨ref, d⟩
  · have unclosed (frame : Frame) (i : Instruction) (executes : point.mark = .executes frame i)
        : i.operation? ≠ some .closure :=
      fun closes => uncaptured ⟨frame, i, executes, .inl closes⟩
    have same := unopened_after opens unclosed s
    refine told.stays same rfl (fun o x => ?_) (fun o => ?_) fun o => ?_ <;> rw [value]
    · exact told.holds
    · exact told.unvalued
    · exact id
  · refine { told with
      holds := value ▸ told.holds
      closures := closures
      activations := ?activations
      registers := ?registers
      unvalued := value ▸ told.unvalued
      valued := value ▸ told.valued
      numbered := ?numbered
      distinct := ?distinct
      upcoming := upcoming }
    case activations =>
      intro key a k x runs known
      rcases activation_after opens runs with ⟨rfl, rfl, new⟩ | ⟨-, before, old⟩
      · rw [new] at known
        cases there : point.machine.upvalues? ref with
        | none => simp [there] at known
        | some upvalues =>
            rw [there] at known
            exact told.closures there known
      · exact told.activations before (old ▸ known)
    case registers =>
      intro key a runs r
      rcases activation_after opens runs with ⟨rfl, rfl, new⟩ | ⟨-, before, old⟩
      · rw [new]
        exact (told.upcoming (Nat.le_refl _)).1 r
      · rw [old]
        exact told.registers before r
    case numbered =>
      intro key a runs
      rcases activation_after opens runs with ⟨-, rfl, -⟩ | ⟨-, before, -⟩
      · exact Nat.lt_succ_self _
      · exact Nat.lt_succ_of_lt (told.numbered before)
    case distinct =>
      intro key other a b runs also same
      rcases activation_after opens runs with ⟨rfl, rfl, -⟩ | ⟨-, before, -⟩
        <;> rcases activation_after opens also with ⟨rfl, rfl, -⟩ | ⟨-, also_before, -⟩
      · rfl
      · exact absurd same (Nat.ne_of_gt (told.numbered also_before))
      · exact absurd same (Nat.ne_of_lt (told.numbered before))
      · exact told.distinct before also_before same

end Story.Told

-----------------------------------------------------------------------------------------
-- Variables that come to be
-----------------------------------------------------------------------------------------

/-- More variables have cells, and those that come to have one have one of their own beyond some. -/
structure Widens (cell wider : Origin → Option CellRef) (size : Nat) : Prop where
  keeps {o x} : cell o = some x → wider o = some x
  beyond {o x} : cell o = none → wider o = some x → size ≤ x.index
  apart {o other x}
    : cell o = none → cell other = none → wider o = some x → wider other = some x → o = other

/-- Closures that a point makes will be known by where their variables come from. -/
structure Story.Expects (s : Story) (source : Option ClosureRef) (n : Nat)
    (cell : Origin → Option CellRef) (m : Machine)
    : Prop where
  copies {origin ref} (copied : source = some origin) (unborn : m.upvalues? ref = none)
    : s.origin ref = s.origin origin
  founds {ref} (original : source = none) (unborn : m.upvalues? ref = none)
    : s.origin ref = .slot n ref
  unmade {ref} (unborn : m.upvalues? ref = none) (k : Nat) : cell (.slot n ref k) = none
  past : n < s.points

theorem Story.Expects.goes {wider : Origin → Option CellRef} {source : Option ClosureRef} {n : Nat}
    (expects : s.Expects source n cell m)
    (unborn : ∀ ref, after.upvalues? ref = none → m.upvalues? ref = none)
    (same : ∀ ref, after.upvalues? ref = none → ∀ k, wider (.slot n ref k) = cell (.slot n ref k))
    : s.Expects source n wider after where
  copies copied gone := expects.copies copied (unborn _ gone)
  founds original gone := expects.founds original (unborn _ gone)
  unmade gone k := (same _ gone k).trans (expects.unmade (unborn _ gone) k)
  past := expects.past

theorem Machine.getElem?_upcoming {count k : Nat} {x : CellRef}
    : (m.upcoming count)[k]? = some x ↔ k < count ∧ x = ⟨m.cells.size + k⟩ := by
  simp only [upcoming, List.getElem?_map, Option.map_eq_some_iff]
  constructor
  · rintro ⟨index, listed, rfl⟩
    obtain ⟨bound, rfl⟩ := List.getElem?_eq_some_iff.mp listed
    simp at bound
    simp [bound]
  · rintro ⟨within, rfl⟩
    exact ⟨m.cells.size + k, by simp [within], rfl⟩

/-- The variables of a closure that is made over a prototype have cells. -/
def founded (cell : Origin → Option CellRef) (n : Nat) (ref : ClosureRef) (cells : List CellRef)
    : Origin → Option CellRef
  | .slot p f k => if p = n ∧ f = ref then cells[k]? else cell (.slot p f k)
  | .register a r => cell (.register a r)

theorem founded_slot (n : Nat) (ref : ClosureRef) (cells : List CellRef) (k : Nat)
    : founded cell n ref cells (.slot n ref k) = cells[k]? :=
  if_pos ⟨rfl, rfl⟩

theorem founded_of_ne {n : Nat} {ref : ClosureRef} {o : Origin} (other : ∀ k, o ≠ .slot n ref k)
    (cells : List CellRef)
    : founded cell n ref cells o = cell o := by
  cases o with
  | register => rfl
  | slot p f k => exact if_neg fun ⟨same, also⟩ => other k (by rw [same, also])

/-- A variable that is given a cell anew is one of the closure. -/
theorem founded_eq_some {n : Nat} {ref : ClosureRef} {cells : List CellRef} {o : Origin} {x : CellRef}
    (unknown : cell o = none) (known : founded cell n ref cells o = some x)
    : ∃ k, o = .slot n ref k ∧ cells[k]? = some x := by
  by_cases is : ∃ k, o = .slot n ref k
  · obtain ⟨k, rfl⟩ := is
    exact ⟨k, rfl, founded_slot n ref cells k ▸ known⟩
  · rw [founded_of_ne (not_exists.mp is)] at known
    cases unknown.symm.trans known

theorem widens_founded {n : Nat} {ref : ClosureRef} (unmade : ∀ k, cell (.slot n ref k) = none)
    (m : Machine) (count : Nat)
    : Widens cell (founded cell n ref (m.upcoming count)) m.cells.size where
  keeps {o x} known := by
    rw [founded_of_ne, known]
    rintro k rfl
    cases (unmade k).symm.trans known
  beyond unknown known := by
    obtain ⟨k, -, listed⟩ := founded_eq_some unknown known
    obtain ⟨-, rfl⟩ := Machine.getElem?_upcoming.mp listed
    exact Nat.le_add_right ..
  apart unknown also_unknown known also_known := by
    obtain ⟨k, rfl, listed⟩ := founded_eq_some unknown known
    obtain ⟨l, rfl, also_listed⟩ := founded_eq_some also_unknown also_known
    obtain ⟨-, rfl⟩ := Machine.getElem?_upcoming.mp listed
    obtain ⟨-, same⟩ := Machine.getElem?_upcoming.mp also_listed
    rw [Nat.add_left_cancel (CellRef.mk.inj same)]

namespace Story.Told

variable {wider : Origin → Option CellRef} {source : Option ClosureRef} {n : Nat}

/-- The cells of variables are among those of the machine. -/
theorem bounded (told : s.Told cell m) {o : Origin} {x : CellRef} (known : cell o = some x)
    : x.index < m.cells.size :=
  (Array.getElem?_eq_some_iff.mp (told.holds known)).1

theorem apart_of_widens (told : s.Told cell m) (widens : Widens cell wider m.cells.size)
    {o other : Origin} {x : CellRef} (known : wider o = some x) (also : wider other = some x)
    : o = other := by
  cases before : cell o <;> cases also_before : cell other
  case none.none => exact widens.apart before also_before known also
  case none.some =>
    cases (widens.keeps also_before).symm.trans also
    exact absurd (told.bounded also_before) (Nat.not_lt.mpr (widens.beyond before known))
  case some.none =>
    cases (widens.keeps before).symm.trans known
    exact absurd (told.bounded before) (Nat.not_lt.mpr (widens.beyond also_before also))
  case some.some =>
    cases (widens.keeps before).symm.trans known
    cases (widens.keeps also_before).symm.trans also
    exact told.apart before also_before

/-- A copy has the cells of what is copied. -/
theorem copies (told : s.Told cell m) {ref copy : ClosureRef} {upvalues : Array CellRef}
    (same : s.origin copy = s.origin ref) (held : m.upvalues? ref = some upvalues)
    (cells : after.cells = m.cells)
    (born : after.upvalues? = Function.update m.upvalues? copy (some upvalues))
    : s.Told cell after := by
  refine { told with
    holds := fun known => cells ▸ told.holds known
    closures := ?closures }
  intro other known k x there
  rw [born] at there
  by_cases is : other = copy
  · subst is
    rw [Function.update_self] at there
    cases there
    rw [same]
    exact told.closures held
  · rw [Function.update_of_ne is] at there
    exact told.closures there

/-- A closure over a prototype has cells of its own, which hold nothing. -/
theorem founds (told : s.Told cell m) {ref : ClosureRef} {count : Nat}
    (unmade : ∀ k, cell (.slot n ref k) = none) (past : n < s.points)
    (origin : s.origin ref = .slot n ref)
    (cells : after.cells = m.cells ++ Array.replicate count .nil)
    (born : after.upvalues? = Function.update m.upvalues? ref (some (m.upcoming count).toArray))
    : s.Told (founded cell n ref (m.upcoming count)) after := by
  have widens := widens_founded unmade m count
  have extended {k : Nat} {value : Value} (held : m.cells[k]? = some value)
      : after.cells[k]? = some value := by
    rw [cells, Array.getElem?_append_left (Array.getElem?_eq_some_iff.mp held).1, held]
  constructor
  case apart => exact told.apart_of_widens widens
  case holds =>
    intro o x known
    cases before : cell o with
    | some held =>
        cases (widens.keeps before).symm.trans known
        exact extended (told.holds before)
    | none =>
        obtain ⟨k, -, listed⟩ := founded_eq_some before known
        obtain ⟨within, rfl⟩ := Machine.getElem?_upcoming.mp listed
        rw [told.unvalued before, cells]
        simp [within]
  case closures =>
    intro other known k x there listed
    rw [born] at there
    by_cases is : other = ref
    · subst is
      rw [Function.update_self] at there
      cases there
      rw [origin, founded_slot]
      rwa [List.getElem?_toArray] at listed
    · rw [Function.update_of_ne is] at there
      exact widens.keeps (told.closures there listed)
  case activations => exact fun runs known => widens.keeps (told.activations runs known)
  case registers => exact fun runs r => told.registers runs r
  case unvalued =>
    intro o unknown
    cases before : cell o with
    | none => exact told.unvalued before
    | some held => cases unknown.symm.trans (widens.keeps before)
  case valued => exact told.valued
  case numbered => exact told.numbered
  case distinct => exact told.distinct
  case upcoming =>
    intro p later
    refine ⟨(told.upcoming later).1, fun f k => ?_⟩
    rw [founded_of_ne]
    · exact (told.upcoming later).2 f k
    · rintro l ⟨⟩
      exact Nat.lt_irrefl _ (Nat.lt_of_lt_of_le past later)

/-- Closures come to be known as they are made, one after the other. -/
theorem begets (told : s.Told cell m) (expects : s.Expects source n cell m)
    (begets : Machine.Begets source m after)
    : ∃ wider, s.Told wider after ∧ s.Expects source n wider after := by
  have grown {ref : ClosureRef} {upvalues : Array CellRef}
      (born : after.upvalues? = Function.update m.upvalues? ref (some upvalues)) (other : ClosureRef)
      (unborn : after.upvalues? other = none)
      : other ≠ ref ∧ m.upvalues? other = none := by
    rw [born] at unborn
    have apart : other ≠ ref := by
      rintro rfl
      rw [Function.update_self] at unborn
      cases unborn
    exact ⟨apart, by rwa [Function.update_of_ne apart] at unborn⟩
  cases begets with
  | upholds upholds =>
      refine ⟨cell, told.upholds upholds, expects.goes (fun ref gone => ?_) fun _ _ _ => rfl⟩
      rwa [← upholds.upvalues]
  | copies copied held unborn cells born =>
      refine ⟨cell, told.copies (expects.copies copied unborn) held cells born, ?_⟩
      exact expects.goes (fun other gone => (grown born other gone).2) fun _ _ _ => rfl
  | founds original unborn cells born =>
      have unmade := expects.unmade unborn
      refine ⟨_, told.founds unmade expects.past (expects.founds original unborn) cells born, ?_⟩
      refine expects.goes (fun other gone => (grown born other gone).2) fun other gone k => ?_
      exact founded_of_ne (fun l same => (grown born other gone).1 (Origin.slot.inj same).2.1) _

/-- By induction over the closures that are made. -/
theorem breeds (told : s.Told cell m) (expects : s.Expects source n cell m)
    (breeds : Machine.Breeds source m after)
    : ∃ wider, s.Told wider after := by
  have both : ∃ wider, s.Told wider after ∧ s.Expects source n wider after := by
    induction breeds with
    | refl => exact ⟨cell, told, expects⟩
    | tail _ begets ih =>
        obtain ⟨wider, told, expects⟩ := ih
        exact told.begets expects begets
  obtain ⟨wider, told, -⟩ := both
  exact ⟨wider, told⟩

/-- What is known goes on to be known past a point at which nothing is captured. -/
theorem uncaptured (told : s.Told cell point.machine) (does : point.Does first)
    (uncollected : point.mark ≠ .asks .collect) (uncaptured : ¬point.Captures)
    : ∃ wider, (s.after point).Told wider first := by
  have described (k : Nat) : s.described? point k = none := by
    unfold Lineage.described?
    split
    · rename_i frame i executes
      exact if_neg fun closes => uncaptured ⟨frame, i, executes, .inl closes⟩
    · rfl
  have expects : (s.after point).Expects point.copied? s.points cell point.machine := by
    constructor
    case copies =>
      intro origin ref copied unborn
      have shared (other : ClosureRef) : s.born point other = s.origin origin := by
        funext k
        unfold Lineage.born
        rw [copied]
      rw [origin_after_of_none unborn, shared]
      cases there : point.machine.upvalues? origin with
      | none => rw [origin_after_of_none there, shared]
      | some upvalues => rw [origin_after there]
    case founds =>
      intro ref original unborn
      rw [origin_after_of_none unborn]
      funext k
      unfold Lineage.born
      rw [original, described]
      rfl
    case unmade => exact fun _ k => (told.upcoming (Nat.le_refl _)).2 _ k
    case past => exact Nat.lt_succ_self _
  exact (told.pass uncaptured).breeds expects (does.breeds uncollected uncaptured)

end Story.Told
end HookMachine
