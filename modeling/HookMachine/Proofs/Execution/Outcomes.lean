import HookMachine.Execution.Invoke

/-!
Outcomes of operations, put together from the outcomes of their parts.
-/

namespace HookMachine

namespace Run

variable {ε ε' α β : Type} {x y : Run ε α} {f : α → Run ε β} {m after : Machine}

theorem bind_get (f : Machine → Run ε β) (m : Machine) : (get >>= f) m = f m m :=
  rfl

theorem bind_ok {a : α} (ran : x m = .ok a after) : (x >>= f) m = f a after := by
  change EStateM.bind x f m = f a after
  simp [EStateM.bind, ran]

theorem bind_error {halt : Halt ε} (ran : x m = .error halt after)
    : (x >>= f) m = .error halt after := by
  change EStateM.bind x f m = .error halt after
  simp [EStateM.bind, ran]

/-- What comes after an operation takes no notice of what brought its outcome about. -/
theorem bind_congr (same : x m = y m) : (x >>= f) m = (y >>= f) m := by
  change EStateM.bind x f m = EStateM.bind y f m
  simp only [EStateM.bind, same]

theorem attempt_ok {a : α} (ran : x m = .ok a after)
    : Run.attempt x m = .ok (.ok a) after := by
  simp [Run.attempt, ran]

theorem attempt_error {error : ε} (ran : x m = .error (.failed error) after)
    : Run.attempt x m = .ok (.error error) after := by
  simp [Run.attempt, ran]

theorem attempt_congr (same : x m = y m) : Run.attempt x m = Run.attempt y m := by
  simp [Run.attempt, same]

theorem mapError_congr (g : ε → ε') (same : x m = y m)
    : Run.mapError g x m = Run.mapError g y m := by
  simp [Run.mapError, same]

theorem onHalt_ok {undo : Machine → Machine} {a : α} (ran : x m = .ok a after)
    : Run.onHalt x undo m = .ok a after := by
  simp [Run.onHalt, ran]

theorem onHalt_error {undo : Machine → Machine} {halt : Halt ε}
    (ran : x m = .error halt after)
    : Run.onHalt x undo m = .error halt (undo after) := by
  simp [Run.onHalt, ran]

theorem lift_ok {x : Vm α} {a : α} (ran : x m = .ok a after)
    : (liftM x : Action α) m = .ok a after := by
  change Run.mapError _ x m = _
  simp [Run.mapError, ran]

theorem lift_error {x : Vm α} {fault : Fault} (ran : x m = .error (.failed fault) after)
    : (liftM x : Action α) m = .error (.failed (.fault fault)) after := by
  change Run.mapError _ x m = _
  simp [Run.mapError, ran]

end Run

variable {m : Machine}

namespace Vm

theorem checkOwner_of_owns {value : Value} (owned : m.heap.owns value = true)
    : checkOwner value m = .ok () m := by
  refine (Run.bind_get ..).trans ?_
  rw [if_pos owned]
  rfl

theorem checkOwner_of_foreign {value : Value} (foreign : m.heap.owns value = false)
    : checkOwner value m = .error (.failed .foreignHandle) m := by
  refine (Run.bind_get ..).trans ?_
  rw [foreign]
  rfl

theorem closure_of_get {ref : ClosureRef} {c : Closure}
    (found : m.heap.closures.get ref.handle = .ok c)
    : closure ref m = .ok c m := by
  refine (Run.bind_get ..).trans ?_
  rw [found]
  rfl

theorem closure_of_miss {ref : ClosureRef} {miss : Miss}
    (missed : m.heap.closures.get ref.handle = .error miss)
    : closure ref m = .error (.failed (.ofMiss miss)) m := by
  refine (Run.bind_get ..).trans ?_
  rw [missed]
  rfl

theorem table_of_get {ref : TableRef} {t : Table}
    (found : m.heap.tables.get ref.handle = .ok t)
    : table ref m = .ok t m := by
  refine (Run.bind_get ..).trans ?_
  rw [found]
  rfl

theorem table_of_miss {ref : TableRef} {miss : Miss}
    (missed : m.heap.tables.get ref.handle = .error miss)
    : table ref m = .error (.failed (.ofMiss miss)) m := by
  refine (Run.bind_get ..).trans ?_
  rw [missed]
  rfl

theorem native_of_miss {ref : NativeRef} {miss : Miss}
    (missed : m.heap.natives.get ref.handle = .error miss)
    : native ref m = .error (.failed (.ofMiss miss)) m := by
  refine (Run.bind_get ..).trans ?_
  rw [missed]
  rfl

theorem native_of_get {ref : NativeRef} {n : Native}
    (found : m.heap.natives.get ref.handle = .ok n)
    : native ref m = .ok n m := by
  refine (Run.bind_get ..).trans ?_
  rw [found]
  rfl

/-- What a closure over a prototype that captures nothing adds to the heap. -/
theorem instantiate_of_plain {m : Machine} {ref : PrototypeRef}
    (plain : (m.prototypes.get ref).upvalues = 0) (environment : Option TableRef)
    : instantiate ref environment m
      = .ok ⟨(m.heap.closures.insert
            { prototype := ref, upvalues := #[]
              environment := environment.getD m.globals }).1⟩
          { m with
            heap.closures :=
              (m.heap.closures.insert
                { prototype := ref, upvalues := #[]
                  environment := environment.getD m.globals }).2 } := by
  have none : newCells (m.prototypes.get ref).upvalues.toNat = pure [] := by
    rw [plain]
    rfl
  unfold instantiate
  have read : prototype ref m = .ok (m.prototypes.get ref) m := rfl
  refine (Run.bind_ok read).trans ?_
  rw [none]
  rfl

end Vm
end HookMachine
