import HookMachine.Proofs.Likeness.Objects

/-!
Operations that do like things in like machines: a judgement on pairs of operations, with a rule
for each way to put operations together. A likeness says which machines are alike; what it has
to satisfy for the operations of a machine to keep it is a list of laws, one for each part of a
machine that can be written.
-/

namespace HookMachine

/-- Which machines are alike, at a tie of their objects. -/
structure Likeness (ι : Type) where
  tie : Tie
  /-- Like machines, where `ι` tells what only entries and retained values change. -/
  machines : ι → Machine → Machine → Prop
  /-- The faults by which the first run may fall behind the second. -/
  escapes : Fault → Prop

namespace Likeness

variable {ι ε ε' α β γ δ : Type} (L : Likeness ι) (i : ι)

/-- Two operations have come to like results, or to the same stop, in like machines. -/
inductive Outcomes (related : α → β → Prop)
    : EStateM.Result ε Machine α → EStateM.Result ε Machine β → Prop
  | ok {a : α} {b : β} {m n : Machine} (alike : L.machines i m n) (holds : related a b)
    : Outcomes related (.ok a m) (.ok b n)
  | error (error : ε) {m n : Machine} (alike : L.machines i m n)
    : Outcomes related (.error error m) (.error error n)

/-- Two operations do like things in like machines. -/
structure Agree (x : Run ε α) (y : Run ε β) (related : α → β → Prop) : Prop where
  outcome {m n : Machine} : L.machines i m n → L.Outcomes i related (x m) (y n)

variable {L i}

theorem Outcomes.mono {related other : α → β → Prop} {p : EStateM.Result ε Machine α}
    {q : EStateM.Result ε Machine β} (outcomes : L.Outcomes i related p q)
    (implies : ∀ {a b}, related a b → other a b)
    : L.Outcomes i other p q := by
  cases outcomes with
  | ok alike holds => exact .ok alike (implies holds)
  | error error alike => exact .error error alike

theorem Outcomes.attempt {x : Run ε α} {y : Run ε β} {related : α → β → Prop} {m n : Machine}
    (outcomes : L.Outcomes i related (x m) (y n))
    : L.Outcomes i (Matched related) (Run.attempt x m) (Run.attempt y n) := by
  unfold Run.attempt
  generalize x m = p at *
  generalize y n = q at *
  cases outcomes with
  | ok alike holds => exact .ok alike (.ok holds)
  | error error alike =>
      cases error with
      | failed error => exact .ok alike (.error error)
      | outOfFuel => exact .error _ alike

theorem Outcomes.mapError {x : Run ε α} {y : Run ε β} {related : α → β → Prop} (g : ε → ε')
    {m n : Machine} (outcomes : L.Outcomes i related (x m) (y n))
    : L.Outcomes i related (Run.mapError g x m) (Run.mapError g y n) := by
  unfold Run.mapError
  generalize x m = p at *
  generalize y n = q at *
  cases outcomes with
  | ok alike holds => exact .ok alike holds
  | error error alike => cases error <;> exact .error _ alike

namespace Agree

variable {x : Run ε α} {y : Run ε β} {related other : α → β → Prop} {last : γ → δ → Prop}

-----------------------------------------------------------------------------------------
-- Rules
-----------------------------------------------------------------------------------------

theorem pure {a : α} {b : β} (holds : related a b)
    : L.Agree i (pure a : Run ε α) (pure b) related :=
  ⟨fun alike => .ok alike holds⟩

theorem fail (error : ε) : L.Agree i (throw (.failed error) : Run ε α) (throw (.failed error))
    related :=
  ⟨fun alike => .error _ alike⟩

/-- A failure keeps what would follow it from being done. -/
theorem failThen (error : ε) (f : α → Run ε γ) (g : β → Run ε δ)
    : L.Agree i ((throw (.failed error) : Run ε α) >>= f)
        ((throw (.failed error) : Run ε β) >>= g) last :=
  ⟨fun alike => .error _ alike⟩

theorem get : L.Agree i (get : Run ε Machine) get (L.machines i) :=
  ⟨fun alike => .ok alike alike⟩

theorem bind {f : α → Run ε γ} {g : β → Run ε δ} (first : L.Agree i x y related)
    (rest : ∀ a b, related a b → L.Agree i (f a) (g b) last)
    : L.Agree i (x >>= f) (y >>= g) last := by
  refine ⟨fun {m n} alike => ?_⟩
  have first := first.outcome alike
  change L.Outcomes i last (EStateM.bind x f m) (EStateM.bind y g n)
  unfold EStateM.bind
  generalize x m = p at *
  generalize y n = q at *
  cases first with
  | ok alike holds => exact (rest _ _ holds).outcome alike
  | error error alike => exact .error error alike

/-- What comes second takes no notice of what the first results in. -/
theorem andThen {f : α → Run ε γ} {g : β → Run ε δ} (first : L.Agree i x y related)
    (rest : ∀ a b, L.Agree i (f a) (g b) last)
    : L.Agree i (x >>= f) (y >>= g) last :=
  first.bind fun a b _ => rest a b

theorem mono (agree : L.Agree i x y related) (implies : ∀ {a b}, related a b → other a b)
    : L.Agree i x y other :=
  ⟨fun alike => (agree.outcome alike).mono implies⟩

theorem mapError (g : ε → ε') (agree : L.Agree i x y related)
    : L.Agree i (Run.mapError g x) (Run.mapError g y) related :=
  ⟨fun alike => (agree.outcome alike).mapError g⟩

/-- Running code as part of an operation of the host. -/
theorem lift {x : Vm α} {y : Vm β} (agree : L.Agree i x y related)
    : L.Agree i (liftM x : Action α) (liftM y) related :=
  agree.mapError _

/-- An operation of the host as part of running code. -/
theorem toVm {x : Action α} {y : Action β} (agree : L.Agree i x y related)
    : L.Agree i x.toVm y.toVm related :=
  agree.mapError _

theorem attempt (agree : L.Agree i x y related)
    : L.Agree i (Run.attempt x) (Run.attempt y) (Matched related) :=
  ⟨fun alike => (agree.outcome alike).attempt⟩

theorem onHalt {undo undo' : Machine → Machine} (agree : L.Agree i x y related)
    (undone : ∀ {m n}, L.machines i m n → L.machines i (undo m) (undo' n))
    : L.Agree i (Run.onHalt x undo) (Run.onHalt y undo') related := by
  refine ⟨fun {m n} alike => ?_⟩
  have outcome := agree.outcome alike
  unfold Run.onHalt
  generalize x m = p at *
  generalize y n = q at *
  cases outcome with
  | ok alike holds => exact .ok alike holds
  | error error alike => exact .error error (undone alike)

theorem modify {change change' : Machine → Machine}
    (changed : ∀ {m n}, L.machines i m n → L.machines i (change m) (change' n))
    : L.Agree i (modify change : Run ε Unit) (modify change') Eq :=
  ⟨fun alike => .ok (changed alike) rfl⟩

theorem modifyGet {change : Machine → α × Machine} {change' : Machine → β × Machine}
    (changed : ∀ {m n}, L.machines i m n
      → L.machines i (change m).2 (change' n).2 ∧ related (change m).1 (change' n).1)
    : L.Agree i (modifyGet change : Run ε α) (modifyGet change') related :=
  ⟨fun alike => .ok (changed alike).1 (changed alike).2⟩

theorem forM {f : α → Run ε PUnit} {g : β → Run ε PUnit} {xs : List α} {ys : List β}
    (listed : xs.Forall₂ related ys) (each : ∀ a b, related a b → L.Agree i (f a) (g b) Eq)
    : L.Agree i (xs.forM f) (ys.forM g) Eq := by
  induction listed with
  | nil => exact pure rfl
  | cons head _ ih => exact (each _ _ head).andThen fun _ _ => ih

theorem mapM {f : α → Run ε γ} {g : β → Run ε δ} {xs : List α} {ys : List β}
    (listed : xs.Forall₂ related ys) (each : ∀ a b, related a b → L.Agree i (f a) (g b) last)
    : L.Agree i (xs.mapM f) (ys.mapM g) (List.Forall₂ last) := by
  induction listed with
  | nil => exact pure .nil
  | cons head _ ih =>
      rw [List.mapM_cons, List.mapM_cons]
      exact (each _ _ head).bind fun _ _ made => ih.bind fun _ _ others => pure (.cons made others)

end Agree

-----------------------------------------------------------------------------------------
-- Laws
-----------------------------------------------------------------------------------------

variable (L)

/-- Like machines show like things, and writing like things to like places, or making like objects,
leaves machines alike.
-/
structure Lawful : Prop where
  reads {i m n} : L.machines i m n → L.tie.Machines m n
  insertTable {i m n x y} : L.machines i m n → L.tie.Tables x y
    → L.machines i { m with heap.tables := (m.heap.tables.insert x).2 }
        { n with heap.tables := (n.heap.tables.insert y).2 }
      ∧ L.tie.TableRefs ⟨(m.heap.tables.insert x).1⟩ ⟨(n.heap.tables.insert y).1⟩
  insertClosure {i m n c d} : L.machines i m n → L.tie.Closures c d
    → L.machines i { m with heap.closures := (m.heap.closures.insert c).2 }
        { n with heap.closures := (n.heap.closures.insert d).2 }
      ∧ L.tie.ClosureRefs ⟨(m.heap.closures.insert c).1⟩ ⟨(n.heap.closures.insert d).1⟩
  insertNative {i m n f g} : L.machines i m n → L.tie.Natives f g
    → L.machines i { m with heap.natives := (m.heap.natives.insert f).2 }
        { n with heap.natives := (n.heap.natives.insert g).2 }
      ∧ L.tie.NativeRefs ⟨(m.heap.natives.insert f).1⟩ ⟨(n.heap.natives.insert g).1⟩
  modifyTable {i m n a b} {change change' : Table → Table} : L.machines i m n → L.tie.TableRefs a b
    → (∀ {x y}, L.tie.Tables x y → L.tie.Tables (change x) (change' y))
    → L.machines i { m with heap.tables := m.heap.tables.modify a.handle change }
        { n with heap.tables := n.heap.tables.modify b.handle change' }
  modifyClosure {i m n a b} {change change' : Closure → Closure} : L.machines i m n
    → L.tie.ClosureRefs a b
    → (∀ {c d}, L.tie.Closures c d → L.tie.Closures (change c) (change' d))
    → L.machines i { m with heap.closures := m.heap.closures.modify a.handle change }
        { n with heap.closures := n.heap.closures.modify b.handle change' }
  pushCell {i m n v w} : L.machines i m n → L.tie.Values v w
    → L.machines i { m with cells := m.cells.push v } { n with cells := n.cells.push w }
      ∧ L.tie.cell ⟨m.cells.size⟩
  setCell {i m n c v w} : L.machines i m n → L.tie.cell c → L.tie.Values v w
    → L.machines i { m with cells := m.cells.setIfInBounds c.index v }
        { n with cells := n.cells.setIfInBounds c.index w }
  insertPrototype {i m n p q} : L.machines i m n → L.tie.Assembled p q
    → L.machines i { m with prototypes := (m.prototypes.insert p).2 }
        { n with prototypes := (n.prototypes.insert q).2 }
      ∧ L.tie.prototype ⟨m.prototypes.prototypes.size⟩
  setConstant {i m n p v w} (position : Nat) : L.machines i m n → L.tie.prototype p
    → L.tie.Values v w
    → L.machines i { m with prototypes := m.prototypes.setConstant p position v }
        { n with prototypes := n.prototypes.setConstant p position w }
  setIdentities {i m n} (change : ContextRef → IdentityRegistry → IdentityRegistry)
    : L.machines i m n
    → L.machines i { m with identities := change m.context m.identities }
        { n with identities := change n.context n.identities }
  setEnabled {i m n} (index : Nat) (on : Bool) : L.machines i m n
    → L.machines i
        { m with connections := ConnectionRegistry.setEnabled m.connections index on }
        { n with connections := ConnectionRegistry.setEnabled n.connections index on }
  report {i m n e f} : L.machines i m n → L.tie.Reports e f
    → L.machines i { m with reports := m.reports.push e } { n with reports := n.reports.push f }

end Likeness
end HookMachine
