import HookMachine.Proofs.Likeness.Arenas
import HookMachine.Proofs.Likeness.Runs
import HookMachine.Proofs.Soundness.PrototypeContents

/-!
Runs in which objects get other handles. Two machines that begin alike may have different slots to
spare; what they make from then on stands for each other in the order in which it is made, and as
long as nothing is removed they stay alike.
-/

namespace HookMachine

/-- The kinds of objects that a heap has an arena for. -/
inductive ArenaKind where
  | tables
  | closures
  | natives

/-- The object of a kind that will be made when `k` others of its kind are made before it. -/
def Heap.upcoming (heap : Heap) : ArenaKind → Nat → ObjectRef
  | .tables, k => .table ⟨heap.tables.upcoming k⟩
  | .closures, k => .closure ⟨heap.closures.upcoming k⟩
  | .natives, k => .native ⟨heap.natives.upcoming k⟩

namespace Tie

variable (t : Tie)

/-- A tie of what two machines make from now on, in the order in which they make it. -/
structure Renames (start other : Machine) : Prop where
  made (kind : ArenaKind) (k : Nat) : t.link (start.heap.upcoming kind k)
    (other.heap.upcoming kind k)
  cell {c} : start.cells.size ≤ c.index → t.cell c
  prototype {p} : start.prototypes.prototypes.size ≤ p.index → t.prototype p
  shift : t.shift = 0
  narrow : ¬t.Whole

/-- Machines that have gone on alike from two others within `i + 1` entries: they have made as many
objects of each kind, have removed none, and retain like values in the same slots.
-/
structure Parallel (start other : Machine) (i : Nat) (m n : Machine) : Prop where
  shown : t.Machines m n
  tables : ∃ k, start.heap.tables.Grown k m.heap.tables ∧ other.heap.tables.Grown k n.heap.tables
  closures : ∃ k, start.heap.closures.Grown k m.heap.closures
    ∧ other.heap.closures.Grown k n.heap.closures
  natives : ∃ k, start.heap.natives.Grown k m.heap.natives
    ∧ other.heap.natives.Grown k n.heap.natives
  slots : m.heap.retained.Alike t.Values n.heap.retained
  cells : start.cells.size ≤ m.cells.size
  prototypes : start.prototypes.prototypes.size ≤ m.prototypes.prototypes.size
  limits : m.config.limits = n.config.limits
  steps : m.steps = n.steps
  active : m.activeCalls = i + 1

end Tie

/-- Machines that have gone on alike, within any number of entries. -/
def Likeness.renamed (t : Tie) (start other : Machine) : Likeness Nat where
  tie := t
  machines := t.Parallel start other
  escapes _ := False

variable {t : Tie} {start other m n : Machine} {i : Nat}

/-- A handle that two arenas return next is tied if what they make is. -/
theorem Arena.Grown.next {α : Type} {first second a b : Arena α} {k : Nat}
    (left : first.Grown k a) (right : second.Grown k b) (x y : α)
    : (a.insert x).1 = first.upcoming k ∧ (b.insert y).1 = second.upcoming k := by
  rw [insert_fst, insert_fst, left.upcoming, right.upcoming, Nat.zero_add]
  exact ⟨rfl, rfl⟩

/-- What is there of a heap whose arenas have grown was there before, or has been made. -/
theorem Heap.made_of_live {first now : Heap} {j k l : Nat}
    (tables : first.tables.Grown j now.tables) (closures : first.closures.Grown k now.closures)
    (natives : first.natives.Grown l now.natives) {object : ObjectRef}
    (live : now.isLive object = true)
    : first.isLive object = true ∨ ∃ kind k, object = first.upcoming kind k := by
  cases object with
  | table ref =>
      exact (tables.made live).imp_right fun ⟨k, same⟩ =>
        ⟨.tables, k, congrArg (ObjectRef.table ⟨·⟩) same⟩
  | closure ref =>
      exact (closures.made live).imp_right fun ⟨k, same⟩ =>
        ⟨.closures, k, congrArg (ObjectRef.closure ⟨·⟩) same⟩
  | native ref =>
      exact (natives.made live).imp_right fun ⟨k, same⟩ =>
        ⟨.natives, k, congrArg (ObjectRef.native ⟨·⟩) same⟩

namespace Tie.Renames

variable (renames : t.Renames start other)

include renames

-----------------------------------------------------------------------------------------
-- Objects
-----------------------------------------------------------------------------------------

/-- All that was made in either run stands for something in the other. -/
theorem linked (alike : t.Parallel start other i m n) (object : ObjectRef)
    : (m.heap.isLive object = true
        → start.heap.isLive object = true ∨ ∃ b, t.link object b)
      ∧ (n.heap.isLive object = true
        → other.heap.isLive object = true ∨ ∃ a, t.link a object) := by
  obtain ⟨_, tables, also_tables⟩ := alike.tables
  obtain ⟨_, closures, also_closures⟩ := alike.closures
  obtain ⟨_, natives, also_natives⟩ := alike.natives
  refine ⟨fun live => ?_, fun live => ?_⟩
  · rcases Heap.made_of_live tables closures natives live with before | ⟨kind, k, rfl⟩
    · exact .inl before
    · exact .inr ⟨_, renames.made kind k⟩
  · rcases Heap.made_of_live also_tables also_closures also_natives live with
      before | ⟨kind, k, rfl⟩
    · exact .inl before
    · exact .inr ⟨_, renames.made kind k⟩

theorem insertTable {x y : Table} (alike : t.Parallel start other i m n) (same : t.Tables x y)
    : t.Parallel start other i { m with heap.tables := (m.heap.tables.insert x).2 }
        { n with heap.tables := (n.heap.tables.insert y).2 }
      ∧ t.TableRefs ⟨(m.heap.tables.insert x).1⟩ ⟨(n.heap.tables.insert y).1⟩ := by
  obtain ⟨k, first, second⟩ := alike.tables
  obtain ⟨left, right⟩ := first.next second x y
  have tied : t.TableRefs ⟨(m.heap.tables.insert x).1⟩ ⟨(n.heap.tables.insert y).1⟩ := by
    rw [left, right]
    exact renames.made .tables k
  refine ⟨{ alike with shown := { alike.shown with tables := ?_, heap := ?_ }, tables := ?_ }, tied⟩
  · rintro ⟨a⟩ ⟨b⟩ link
    exact (alike.shown.tables link).insert same (by simpa using t.single link tied)
  · exact fun whole => absurd whole renames.narrow
  · exact ⟨k + 1, first.insert x, second.insert y⟩

theorem insertClosure {c d : Closure} (alike : t.Parallel start other i m n)
    (same : t.Closures c d)
    : t.Parallel start other i { m with heap.closures := (m.heap.closures.insert c).2 }
        { n with heap.closures := (n.heap.closures.insert d).2 }
      ∧ t.ClosureRefs ⟨(m.heap.closures.insert c).1⟩ ⟨(n.heap.closures.insert d).1⟩ := by
  obtain ⟨k, first, second⟩ := alike.closures
  obtain ⟨left, right⟩ := first.next second c d
  have tied : t.ClosureRefs ⟨(m.heap.closures.insert c).1⟩ ⟨(n.heap.closures.insert d).1⟩ := by
    rw [left, right]
    exact renames.made .closures k
  refine ⟨{ alike with
    shown := { alike.shown with closures := ?_, heap := ?_ }, closures := ?_ }, tied⟩
  · rintro ⟨a⟩ ⟨b⟩ link
    exact (alike.shown.closures link).insert same (by simpa using t.single link tied)
  · exact fun whole => absurd whole renames.narrow
  · exact ⟨k + 1, first.insert c, second.insert d⟩

theorem insertNative {f g : Native} (alike : t.Parallel start other i m n)
    (same : t.Natives f g)
    : t.Parallel start other i { m with heap.natives := (m.heap.natives.insert f).2 }
        { n with heap.natives := (n.heap.natives.insert g).2 }
      ∧ t.NativeRefs ⟨(m.heap.natives.insert f).1⟩ ⟨(n.heap.natives.insert g).1⟩ := by
  obtain ⟨k, first, second⟩ := alike.natives
  obtain ⟨left, right⟩ := first.next second f g
  have tied : t.NativeRefs ⟨(m.heap.natives.insert f).1⟩ ⟨(n.heap.natives.insert g).1⟩ := by
    rw [left, right]
    exact renames.made .natives k
  refine ⟨{ alike with
    shown := { alike.shown with natives := ?_, heap := ?_ }, natives := ?_ }, tied⟩
  · rintro ⟨a⟩ ⟨b⟩ link
    exact (alike.shown.natives link).insert same (by simpa using t.single link tied)
  · exact fun whole => absurd whole renames.narrow
  · exact ⟨k + 1, first.insert f, second.insert g⟩

theorem modifyTable {a b : TableRef} {change change' : Table → Table}
    (alike : t.Parallel start other i m n) (tied : t.TableRefs a b)
    (changed : ∀ {x y}, t.Tables x y → t.Tables (change x) (change' y))
    : t.Parallel start other i { m with heap.tables := m.heap.tables.modify a.handle change }
        { n with heap.tables := n.heap.tables.modify b.handle change' } := by
  obtain ⟨k, first, second⟩ := alike.tables
  obtain ⟨a⟩ := a
  obtain ⟨b⟩ := b
  refine { alike with shown := { alike.shown with tables := ?_, heap := ?_ }, tables := ?_ }
  · rintro ⟨c⟩ ⟨d⟩ link
    exact (alike.shown.tables link).modify changed (by simpa using t.single link tied)
  · exact fun whole => absurd whole renames.narrow
  · exact ⟨k, first.modify a change, second.modify b change'⟩

theorem modifyClosure {a b : ClosureRef} {change change' : Closure → Closure}
    (alike : t.Parallel start other i m n) (tied : t.ClosureRefs a b)
    (changed : ∀ {c d}, t.Closures c d → t.Closures (change c) (change' d))
    : t.Parallel start other i
        { m with heap.closures := m.heap.closures.modify a.handle change }
        { n with heap.closures := n.heap.closures.modify b.handle change' } := by
  obtain ⟨k, first, second⟩ := alike.closures
  obtain ⟨a⟩ := a
  obtain ⟨b⟩ := b
  refine { alike with shown := { alike.shown with closures := ?_, heap := ?_ }, closures := ?_ }
  · rintro ⟨c⟩ ⟨d⟩ link
    exact (alike.shown.closures link).modify changed (by simpa using t.single link tied)
  · exact fun whole => absurd whole renames.narrow
  · exact ⟨k, first.modify a change, second.modify b change'⟩

-----------------------------------------------------------------------------------------
-- Cells and prototypes
-----------------------------------------------------------------------------------------

theorem pushCell {v w : Value} (alike : t.Parallel start other i m n) (same : t.Values v w)
    : t.Parallel start other i { m with cells := m.cells.push v }
        { n with cells := n.cells.push w }
      ∧ t.cell ⟨m.cells.size⟩ := by
  refine ⟨{ alike with shown := { alike.shown with cells := ?_, cellCount := ?_ }, cells := ?_ },
    renames.cell alike.cells⟩
  · intro c known
    have before := alike.shown.cells known
    have count := alike.shown.cellCount
    simp only [Array.getD_eq_getD_getElem?, Array.getElem?_push] at before ⊢
    rw [← count]
    split
    · exact same
    · exact before
  · simp only [Array.size_push, alike.shown.cellCount]
  · exact Nat.le_trans alike.cells (by simp)

omit renames in
theorem setCell {c : CellRef} {v w : Value} (alike : t.Parallel start other i m n)
    (same : t.Values v w)
    : t.Parallel start other i { m with cells := m.cells.setIfInBounds c.index v }
        { n with cells := n.cells.setIfInBounds c.index w } := by
  refine { alike with shown := { alike.shown with cells := ?_, cellCount := ?_ }, cells := ?_ }
  · intro d known
    have before := alike.shown.cells known
    have count := alike.shown.cellCount
    simp only [Array.getD_eq_getD_getElem?, Array.getElem?_setIfInBounds] at before ⊢
    rw [count]
    split
    · split
      · exact same
      · exact .nil
    · exact before
  · simp only [Array.size_setIfInBounds, alike.shown.cellCount]
  · exact Nat.le_trans alike.cells (by simp)

theorem insertPrototype {p q : Prototype} (alike : t.Parallel start other i m n)
    (same : t.Assembled p q)
    : t.Parallel start other i { m with prototypes := (m.prototypes.insert p).2 }
        { n with prototypes := (n.prototypes.insert q).2 }
      ∧ t.prototype ⟨m.prototypes.prototypes.size⟩ := by
  have count := alike.shown.prototypeCount
  refine ⟨{ alike with
    shown := { alike.shown with prototypes := ?_, prototypeCount := ?_ }, prototypes := ?_ },
    renames.prototype alike.prototypes⟩
  · intro ref known
    by_cases last : ref.index = m.prototypes.prototypes.size
    · have first : ref = (m.prototypes.insert p).1 := congrArg PrototypeRef.mk last
      have second : ref = (n.prototypes.insert q).1 :=
        congrArg PrototypeRef.mk (last.trans count)
      have left := PrototypeStore.get_insert_self m.prototypes p
      have right := PrototypeStore.get_insert_self n.prototypes q
      rw [← first] at left
      rw [← second] at right
      simp only [left, right]
      refine { same.toPrototypes with nested := ?_, known := fun child member => ?_ }
      · rw [same.nested, count]
      · exact same.known child (Array.mem_filter.mp member).1
    · simp only [PrototypeStore.get_insert_of_ne p last,
        PrototypeStore.get_insert_of_ne q (count ▸ last)]
      exact alike.shown.prototypes known
  · simp only [PrototypeStore.size_insert, count]
  · exact Nat.le_trans alike.prototypes (by simp)

omit renames in
theorem setConstant {ref : PrototypeRef} {v w : Value} (position : Nat)
    (alike : t.Parallel start other i m n) (same : t.Values v w)
    : t.Parallel start other i
        { m with prototypes := m.prototypes.setConstant ref position v }
        { n with prototypes := n.prototypes.setConstant ref position w } := by
  refine { alike with
    shown := { alike.shown with prototypes := ?_, prototypeCount := ?_ }, prototypes := ?_ }
  · intro p known
    have before := alike.shown.prototypes known
    simp only [PrototypeStore.get_setConstant]
    split
    · refine { before with constants := ?_ }
      simp only [Array.toList_setIfInBounds]
      exact before.constants.set same position
    · exact before
  · simp only [PrototypeStore.size_setConstant, alike.shown.prototypeCount]
  · exact Nat.le_trans alike.prototypes (by simp)

-----------------------------------------------------------------------------------------
-- Laws
-----------------------------------------------------------------------------------------

theorem lawful : (Likeness.renamed t start other).Lawful where
  reads alike := alike.shown
  insertTable := renames.insertTable
  insertClosure := renames.insertClosure
  insertNative := renames.insertNative
  modifyTable := renames.modifyTable
  modifyClosure := renames.modifyClosure
  pushCell := renames.pushCell
  setCell alike _ same := setCell alike same
  insertPrototype := renames.insertPrototype
  setConstant position alike _ same := setConstant position alike same
  setIdentities change alike :=
    { alike with
      shown :=
        { alike.shown with
          identities := by rw [alike.shown.context, alike.shown.identities] } }
  setEnabled index on alike :=
    { alike with
      shown := { alike.shown with connections := alike.shown.connections.setEnabled index on } }
  report alike same := by
    refine { alike with shown := { alike.shown with reports := ?_ } }
    simp only [Array.toList_push]
    exact alike.shown.reports.append (.cons same .nil)

/-- Machines stay alike while like things are done to what they retain. -/
theorem changeSlots {a b : Arena Value} {out also : Nat} (alike : t.Parallel start other i m n)
    (slots : a.Alike t.Values b) (same : out = also)
    : t.Parallel start other i { m with heap.retained := a, guards := out }
        { n with heap.retained := b, guards := also } where
  shown :=
    { alike.shown with
      slots := slots.get
      retained := slots.values
      guards := same
      heap := fun whole => absurd whole renames.narrow }
  tables := alike.tables
  closures := alike.closures
  natives := alike.natives
  slots := slots
  cells := alike.cells
  prototypes := alike.prototypes
  limits := alike.limits
  steps := alike.steps
  active := alike.active

theorem seamless : (Likeness.renamed t start other).Seamless where
  toLawful := renames.lawful
  hold alike same := by
    obtain ⟨slot, slots⟩ := alike.slots.insert same
    exact ⟨renames.changeSlots alike slots (congrArg Nat.succ alike.shown.guards), slot, same⟩
  letGo {_ m n g h} alike guard := by
    obtain ⟨removed, slots⟩ := alike.slots.remove g.slot
    have guards
        : (if (m.heap.retained.remove g.slot).1.isSome then m.guards - 1 else m.guards)
          = if (n.heap.retained.remove g.slot).1.isSome then n.guards - 1 else n.guards := by
      rw [removed.isSome, alike.shown.guards]
    unfold Machine.letGo
    rw [← guard.slot]
    exact renames.changeSlots alike slots guards
  setEnvironments alike same :=
    { alike with shown := { alike.shown with environments := same } }
  setHooks alike same := { alike with shown := { alike.shown with hooks := same } }
  setConnections alike same := { alike with shown := { alike.shown with connections := same } }

-----------------------------------------------------------------------------------------
-- Runs
-----------------------------------------------------------------------------------------

omit renames in
/-- Machines stay alike while entries and instructions are counted alike. -/
theorem changeCounts {j calls also steps counted : Nat} (alike : t.Parallel start other i m n)
    (active : calls = j + 1) (same : calls = also) (count : steps = counted)
    : t.Parallel start other j { m with activeCalls := calls, steps }
        { n with activeCalls := also, steps := counted } :=
  { alike with shown := { alike.shown with activeCalls := same }, steps := count, active }

theorem paced : (Likeness.renamed t start other).Paced where
  toRegular := renames.seamless.regular
  depth {i m n} alike := by
    have shift : (Likeness.renamed t start other).tie.shift = 0 := renames.shift
    rw [shift, alike.limits]
    exact .inl rfl
  redirects alike := .inl (by rw [alike.limits])
  charge {i m n} alike := by
    rw [Vm.charge_eq, Vm.charge_eq, alike.limits, alike.steps]
    cases n.config.limits.count n.steps with
    | none => exact .alike (.error _ alike)
    | some steps =>
        exact .alike (.ok (changeCounts alike alike.active alike.shown.activeCalls rfl) rfl)

end Tie.Renames

/-- Follows a run in which no native that lists objects is called, by how many entries are open. -/
def Watch.unsurveyed : Watch Nat where
  note
    | .entered, i => i + 1
    | .left, i => i - 1
    | _, i => i
  permits _ point := ∀ n, point.Calls n → ¬n.Surveys
  onward := Eq

namespace Tie.Renames

variable (renames : t.Renames start other)

include renames

/-- Within entries nothing is collected, so machines stay alike over whatever is retained and given
back.
-/
theorem answer_alike {r s : Request} {answers : r.Answer → s.Answer → Prop} (invoke : Invoke)
    (asked : t.Requests r s answers) (moves : r.moves = true)
    (alike : t.Parallel start other i m n)
    : ∃ o p after last, Course.answer invoke r m = .ok o after
        ∧ Course.answer invoke s n = .ok p last ∧ Matched answers o p
        ∧ t.Parallel start other i after last := by
  cases asked with
  | @plain r plain =>
      cases r with
      | collect =>
          have busy : 0 < m.activeCalls := by simp [alike.active]
          have also : 0 < n.activeCalls := alike.shown.activeCalls ▸ busy
          refine ⟨_, _, _, _, answer_collect .., answer_collect .., ?_, ?_⟩
          · rw [Machine.collect_of_busy busy, Machine.collect_of_busy also]
            exact .ok rfl
          · rw [Machine.collect_of_busy busy, Machine.collect_of_busy also]
            exact alike
      | release slot =>
          obtain ⟨removed, slots⟩ := alike.slots.remove slot
          refine ⟨_, _, _, _, rfl, rfl, .ok removed.isSome, ?_⟩
          exact renames.changeSlots alike slots alike.shown.guards
      | _ => simp [Request.isPlain, Request.moves] at plain moves
  | @retain v w same =>
      obtain ⟨slot, slots⟩ := alike.slots.insert same
      rw [answer_retain, answer_retain, alike.shown.owns same]
      split
      · exact ⟨_, _, _, _, rfl, rfl, .ok slot, renames.changeSlots alike slots alike.shown.guards⟩
      · exact ⟨_, _, _, _, rfl, rfl, .error _, alike⟩
  | @hold v w same =>
      obtain ⟨still, guards⟩ := renames.seamless.hold alike same
      rw [answer_hold, answer_hold, alike.shown.owns same]
      split
      · exact ⟨_, _, _, _, rfl, rfl, .ok guards, still⟩
      · exact ⟨_, _, _, _, rfl, rfl, .error _, alike⟩
  | @letGo g h guard =>
      refine ⟨_, _, _, _, rfl, rfl, .ok rfl, ?_⟩
      exact renames.seamless.letGo alike guard
  | _ => simp [Request.moves] at moves

theorem conducted : (Likeness.renamed t start other).Conducted Watch.unsurveyed where
  toPaced := renames.paced
  refl _ := rfl
  trans := Eq.trans
  still {i mark} still := by
    cases mark <;> first | rfl | simp [Mark.moves] at still
  stays _ := id
  quiet permits calls surveys := absurd surveys (permits _ calls)
  enters alike := changeCounts alike (congrArg _ alike.active)
    (congrArg _ alike.shown.activeCalls) rfl
  leaves {i j m n after last} alike onward still := by
    cases onward
    have calls : after.activeCalls - 1 = last.activeCalls - 1 := by rw [still.shown.activeCalls]
    exact ⟨changeCounts still (congrArg Nat.pred still.active) calls alike.steps, rfl⟩
  moves {i m n r s answers} invoke asked moves _ alike := by
    obtain ⟨o, p, after, last, ran, also, matched, still⟩ :=
      renames.answer_alike invoke asked moves alike
    exact ⟨o, p, after, last, ran, also, matched, still, rfl⟩

end Tie.Renames
end HookMachine
