import HookMachine.Proofs.Deeds.Layers
import HookMachine.Proofs.Table.Invariants

/-!
Chains of metatables. Where reading and writing go on to the same tables, a write ends in the one
table where a read of the key ends, and both give up a chain of the same length. What was written
is read back, unless the write turned the chain itself aside.
-/

namespace HookMachine

-----------------------------------------------------------------------------------------
-- Chains
-----------------------------------------------------------------------------------------

namespace Machine

/-- By the metamethod, accesses of the key pass so many tables that lack it, on the way from an
object to another.
-/
inductive Passes (m : Machine) (name : String) (key : Value) : Nat → Value → Value → Prop
  | here (object) : Passes m name key 0 object object
  | on {passed ref t next last} (found : m.heap.tables.get ref.handle = .ok t)
    (lacks : t.get? key = none) (handled : Vm.handler t name m = .ok next m)
    (there : next.isNil = false) (object : next.isFunction = false)
    (rest : Passes m name key passed next last)
    : Passes m name key (passed + 1) (.table ref) last

/-- Along the chain of an object, each table has the same further object for reading and writing,
or none for either.
-/
def Concords (m : Machine) (object key : Value) : Prop :=
  ∀ {passed ref t},
    m.Passes "__index" key passed object (.table ref) → m.heap.tables.get ref.handle = .ok t
    → ∃ next, next.isFunction = false ∧ Vm.handler t "__index" m = .ok next m
        ∧ Vm.handler t "__newindex" m = .ok next m

/-- The chain of an object ends for a key: in the first table that holds it, else in the last. -/
structure Ends (m : Machine) (object key : Value) (passed : Nat) (ref : TableRef) (t : Table)
    : Prop where
  within : passed < Vm.maxChain
  passes : m.Passes "__index" key passed object (.table ref)
  found : m.heap.tables.get ref.handle = .ok t
  last : (t.get? key).isSome = true ∨ Vm.handler t "__index" m = .ok .nil m

/-- As many tables as an access may visit lack the key, and the last of them has a further object.
-/
def TooLong (m : Machine) (object key : Value) : Prop :=
  ∃ last, m.Passes "__index" key Vm.maxChain object last

/-- Writing the key into a table turns aside a chain that leads there: the table is the metatable
of one that is passed on the way, and the key says where this goes on to.
-/
def Diverts (m : Machine) (object key : Value) (passed : Nat) (ref : TableRef) : Prop :=
  key = .string "__index"
    ∧ ∃ before via t, before < passed ∧ m.Passes "__index" key before object (.table via)
        ∧ m.heap.tables.get via.handle = .ok t ∧ t.metatable = some ref

/-- The value that a table holds under a key. -/
def field? (m : Machine) (ref : TableRef) (key : Value) : Option Value :=
  (m.heap.tables.get ref.handle).toOption.bind (·.get? key)

/-- Reading and writing along the chain of an object agree. -/
structure AgreesAlong (m : Machine) (object key : Value) : Prop where
  /-- A write is one to the table where the chain ends. -/
  stores {invoke value depth after}
    : Vm.assign invoke object key value depth m = .ok () after
      ↔ m.heap.owns value = true
          ∧ ∃ passed ref t, m.Ends object key passed ref t ∧ t.readOnly = false
              ∧ after = m.stored ref key value
  /-- Nothing else is changed. -/
  others {passed ref t} (value : Value)
    : m.Ends object key passed ref t
      → ∀ other k, (m.stored ref key value).field? other k
          = if other = ref ∧ (key == k) = true then Table.present value else m.field? other k
  readsBack {passed ref t value} (invoke : Invoke) (depth : Nat)
    : m.Ends object key passed ref t → ¬m.Diverts object key passed ref → value ≠ .nil
      → Vm.index invoke object key depth (m.stored ref key value)
          = .ok value (m.stored ref key value)
  readTooLong {invoke depth after}
    : Vm.index invoke object key depth m = .error (.failed .readChain) after
      ↔ m.TooLong object key ∧ after = m
  writeTooLong {invoke value depth after}
    : Vm.assign invoke object key value depth m = .error (.failed .writeChain) after
      ↔ (m.heap.owns value = true ∧ m.TooLong object key) ∧ after = m

/-- How metatables send accesses on, in every case. -/
structure ChainLaws (m : Machine) : Prop where
  agrees {object key} : key.isKey = true → m.Concords object key → m.AgreesAlong object key
  /-- A chain that lacks the key and comes back to where it was is too long. -/
  cyclic {object key before around middle}
    : m.Passes "__index" key before object middle
      → m.Passes "__index" key (around + 1) middle middle → m.TooLong object key
  /-- A write that fails leaves all as it is, unless a function failed that handles it. -/
  fails {invoke object key value depth halt after}
    : Vm.assign invoke object key value depth m = .error halt after
      → after = m
        ∨ ∃ f via, f.isFunction = true
            ∧ invoke f [.table via, key, value] none (depth + 1) m = .error halt after
  foreign {invoke ref key value depth}
    : key.isKey = true → m.heap.owns value = false
      → Vm.assign invoke (.table ref) key value depth m = .error (.failed .foreignHandle) m

end Machine

variable {m after : Machine} {name : String} {object key value next last middle : Value}
  {passed more limit depth : Nat} {ref : TableRef} {t : Table} {invoke : Invoke} {s : Situation}

namespace Machine.Passes

theorem trans (first : m.Passes name key passed object middle)
    (rest : m.Passes name key more middle last)
    : m.Passes name key (passed + more) object last := by
  induction first with
  | here => rwa [Nat.zero_add]
  | on found lacks handled there further _ ih =>
      rw [Nat.add_right_comm]
      exact .on found lacks handled there further (ih rest)

/-- A way starts with ways past fewer tables, by induction over the way. -/
theorem take (passes : m.Passes name key passed object last) (le : more ≤ passed)
    : ∃ middle, m.Passes name key more object middle := by
  induction passes generalizing more with
  | here =>
      obtain rfl := Nat.le_zero.mp le
      exact ⟨_, .here _⟩
  | on found lacks handled there further _ ih =>
      cases more with
      | zero => exact ⟨_, .here _⟩
      | succ more =>
          obtain ⟨middle, rest⟩ := ih (Nat.le_of_succ_le_succ le)
          exact ⟨middle, .on found lacks handled there further rest⟩

/-- A circle passes as many tables as one likes. -/
theorem circle (around : m.Passes name key (more + 1) object object) (passed : Nat)
    : ∃ last, m.Passes name key passed object last := by
  have rounds (n : Nat) : ∃ total, n ≤ total ∧ m.Passes name key total object object := by
    induction n with
    | zero => exact ⟨0, Nat.le_refl 0, .here object⟩
    | succ n ih =>
        obtain ⟨total, le, passes⟩ := ih
        exact ⟨total + (more + 1), by omega, passes.trans around⟩
  obtain ⟨total, le, passes⟩ := rounds passed
  exact passes.take le

end Machine.Passes

/-- After one table, a chain concords as before. -/
theorem Machine.Concords.on (concords : m.Concords (.table ref) key)
    (found : m.heap.tables.get ref.handle = .ok t) (lacks : t.get? key = none)
    (handled : Vm.handler t "__index" m = .ok next m) (there : next.isNil = false)
    (further : next.isFunction = false)
    : m.Concords next key :=
  fun passes held => concords (.on found lacks handled there further passes) held

/-- A chain concords if it does after its first table. -/
theorem Machine.Concords.of_next (found : m.heap.tables.get ref.handle = .ok t)
    (read : Vm.handler t "__index" m = .ok next m)
    (written : Vm.handler t "__newindex" m = .ok next m) (further : next.isFunction = false)
    (rest : m.Concords next key)
    : m.Concords (.table ref) key := by
  intro passed via held passes here
  cases passes with
  | here =>
      cases found.symm.trans here
      exact ⟨next, further, read, written⟩
  | on first _ handled _ _ onwards =>
      cases found.symm.trans first
      cases read.symm.trans handled
      exact rest onwards here

theorem Machine.concords_nil (m : Machine) (key : Value) : m.Concords .nil key := by
  intro passed ref t passes
  cases passes

/-- Accesses that a table sends to itself go on to no other, by induction over the way. -/
theorem Machine.Passes.eq_of_loop (found : m.heap.tables.get ref.handle = .ok t)
    (handled : Vm.handler t name m = .ok (.table ref) m)
    (passes : m.Passes name key passed object last) (start : object = .table ref)
    : last = .table ref := by
  induction passes with
  | here => exact start
  | on first _ onwards _ _ _ ih =>
      cases start
      cases found.symm.trans first
      cases handled.symm.trans onwards
      exact ih rfl

theorem Machine.concords_of_loop (found : m.heap.tables.get ref.handle = .ok t)
    (read : Vm.handler t "__index" m = .ok (.table ref) m)
    (written : Vm.handler t "__newindex" m = .ok (.table ref) m) (key : Value)
    : m.Concords (.table ref) key := by
  intro passed via held passes here
  cases passes.eq_of_loop found read rfl
  cases found.symm.trans here
  exact ⟨_, rfl, read, written⟩

/-- A write passes the tables that a read passes, by induction over the way. -/
theorem Machine.Concords.crosses (concords : m.Concords object key)
    (passes : m.Passes "__index" key passed object last)
    : m.Passes "__newindex" key passed object last := by
  induction passes with
  | here => exact .here _
  | on found lacks handled there further _ ih =>
      obtain ⟨next, -, read, written⟩ := concords (.here _) found
      cases read.symm.trans handled
      exact .on found lacks written there further (ih (concords.on found lacks handled there further))

-----------------------------------------------------------------------------------------
-- Following a chain
-----------------------------------------------------------------------------------------

namespace Vm

/-- A read goes on after the tables it passes, by induction over the way. -/
theorem indexChain_of_passes (passes : m.Passes "__index" key passed object last) (limit : Nat)
    : indexChain invoke key depth (limit + passed) object m
      = indexChain invoke key depth limit last m := by
  induction passes with
  | here => rfl
  | on found lacks handled there further _ ih =>
      rw [← ih]
      refine (Run.bind_ok (table_of_get found)).trans ?_
      rw [lacks]
      refine (Run.bind_ok handled).trans ?_
      rw [there, further]
      rfl

theorem writeHandler_of_lacks (lacks : t.get? key = none) (m : Machine)
    : writeHandler t key m = handler t "__newindex" m := by
  rw [writeHandler, lacks]
  rfl

/-- So does a write of a value of the heap. -/
theorem assignChain_of_passes (passes : m.Passes "__newindex" key passed object last)
    (owned : m.heap.owns value = true) (limit : Nat)
    : assignChain invoke key value depth (limit + passed) object m
      = assignChain invoke key value depth limit last m := by
  induction passes with
  | here => rfl
  | on found lacks handled there further _ ih =>
      rw [← ih]
      refine (Run.bind_ok (checkOwner_of_owns owned)).trans ?_
      refine (Run.bind_ok (table_of_get found)).trans ?_
      refine (Run.bind_ok ((writeHandler_of_lacks lacks m).trans handled)).trans ?_
      rw [there, further]
      rfl

theorem checkKey_of_isKey (named : key.isKey = true) (m : Machine)
    : checkKey key m = .ok () m := by
  cases key with
  | nil => cases named
  | number x =>
      have number : x.isNaN = false := by simpa [Value.isKey] using named
      rw [checkKey, number]
      rfl
  | _ => rfl

/-- A write goes on after the tables it passes. -/
theorem assign_of_passes (named : key.isKey = true) (owned : m.heap.owns value = true)
    (passes : m.Passes "__newindex" key passed object last) (within : passed ≤ maxChain)
    : assign invoke object key value depth m
      = assignChain invoke key value depth (maxChain - passed) last m := by
  refine (Run.bind_ok (checkKey_of_isKey named m)).trans ?_
  rw [← assignChain_of_passes passes owned, Nat.sub_add_cancel within]

theorem index_of_passes (passes : m.Passes "__index" key passed object last)
    (within : passed ≤ maxChain)
    : index invoke object key depth m
      = indexChain invoke key depth (maxChain - passed) last m := by
  rw [index, ← indexChain_of_passes passes, Nat.sub_add_cancel within]

theorem assign_of_foreign_table (named : key.isKey = true) (foreign : m.heap.owns value = false)
    (ref : TableRef)
    : assign invoke (.table ref) key value depth m = .error (.failed .foreignHandle) m :=
  (Run.bind_ok (checkKey_of_isKey named m)).trans (Run.bind_error (checkOwner_of_foreign foreign))

/-- A value of another heap is refused by the first table, and anything else refuses values. -/
theorem assign_of_foreign (named : key.isKey = true) (foreign : m.heap.owns value = false)
    (object : Value)
    : ∃ fault, fault ≠ .writeChain
        ∧ assign invoke object key value depth m = .error (.failed fault) m := by
  cases object with
  | table ref => exact ⟨.foreignHandle, by simp, assign_of_foreign_table named foreign ref⟩
  | _ => exact ⟨.misuse .index _, by simp, Run.bind_ok (checkKey_of_isKey named m)⟩

/-- A write that fails either fails before anything is done or with a function that handles it, by
induction over how many tables it may visit.
-/
theorem assignChain_fails {halt : Halt Fault}
    (failed : assignChain invoke key value depth limit object m = .error halt after)
    : after = m
      ∨ ∃ f via, f.isFunction = true
          ∧ invoke f [.table via, key, value] none (depth + 1) m = .error halt after := by
  induction limit generalizing object with
  | zero =>
      cases failed
      exact .inl rfl
  | succ limit ih =>
      cases object with
      | table ref =>
          rcases (checkOwner_looks value).outcome m with ⟨⟨⟩, ran⟩ | ⟨fault, ran⟩
          case inr =>
            cases (Run.bind_error ran).symm.trans failed
            exact .inl rfl
          replace failed := (Run.bind_ok ran).symm.trans failed
          rcases (table_looks ref).outcome m with ⟨t, found⟩ | ⟨fault, ran⟩
          case inr =>
            cases (Run.bind_error ran).symm.trans failed
            exact .inl rfl
          replace failed := (Run.bind_ok found).symm.trans failed
          rcases (writeHandler_looks t key).outcome m with ⟨next, ran⟩ | ⟨fault, ran⟩
          case inr =>
            cases (Run.bind_error ran).symm.trans failed
            exact .inl rfl
          replace failed := (Run.bind_ok ran).symm.trans failed
          by_cases missing : next.isNil = true
          · rw [if_pos missing] at failed
            cases readOnly : t.readOnly with
            | true =>
                rw [readOnly] at failed
                cases failed
                exact .inl rfl
            | false =>
                rw [readOnly] at failed
                cases (Run.bind_ok found).symm.trans failed
          · rw [if_neg missing] at failed
            by_cases function : next.isFunction = true
            · rw [if_pos function] at failed
              refine .inr ⟨next, ref, function, ?_⟩
              rcases ran : invoke next [.table ref, key, value] none (depth + 1) m with
                ⟨results, last⟩ | ⟨error, last⟩
              · cases (Run.bind_ok ran).symm.trans failed
              · cases (Run.bind_error ran).symm.trans failed
                rfl
            · rw [if_neg function] at failed
              exact ih failed
      | _ =>
          cases failed
          exact .inl rfl

end Vm

-----------------------------------------------------------------------------------------
-- Where a chain leads
-----------------------------------------------------------------------------------------

/-- Nothing can be read or written at this place of a chain. -/
def Machine.Blocks (m : Machine) : Value → Prop
  | .table ref => ∃ miss, m.heap.tables.get ref.handle = .error miss
  | _ => True

/-- A chain is blocked before it ends. -/
def Machine.Blocked (m : Machine) (object key : Value) : Prop :=
  ∃ passed last, passed < Vm.maxChain ∧ m.Passes "__index" key passed object last ∧ m.Blocks last

/-- A chain goes on past a table, ends there, or is blocked. -/
theorem Machine.Concords.goes (concords : m.Concords object key)
    (passes : m.Passes "__index" key passed object last)
    : (∃ next, m.Passes "__index" key (passed + 1) object next)
      ∨ (∃ ref t, last = .table ref ∧ m.heap.tables.get ref.handle = .ok t
          ∧ ((t.get? key).isSome = true ∨ Vm.handler t "__index" m = .ok .nil m))
      ∨ m.Blocks last := by
  cases last with
  | table ref =>
      rcases found : m.heap.tables.get ref.handle with miss | t
      · exact .inr (.inr ⟨miss, found⟩)
      · cases held : t.get? key with
        | some there => exact .inr (.inl ⟨ref, t, rfl, found, .inl (by rw [held]; rfl)⟩)
        | none =>
            obtain ⟨next, further, handled, -⟩ := concords passes found
            cases there : next.isNil with
            | false => exact .inl ⟨next, passes.trans (.on found held handled there further (.here _))⟩
            | true =>
                obtain rfl : next = .nil := by cases next <;> simp_all [Value.isNil]
                exact .inr (.inl ⟨ref, t, rfl, found, .inr handled⟩)
  | _ => exact .inr (.inr trivial)

/-- A chain passes as many tables as one likes, ends before that or is blocked, by induction over
their number.
-/
theorem Machine.Concords.leads (concords : m.Concords object key) (limit : Nat)
    : (∃ last, m.Passes "__index" key limit object last)
      ∨ ∃ passed last, passed < limit ∧ m.Passes "__index" key passed object last
          ∧ ((∃ ref t, last = .table ref ∧ m.heap.tables.get ref.handle = .ok t
                ∧ ((t.get? key).isSome = true ∨ Vm.handler t "__index" m = .ok .nil m))
              ∨ m.Blocks last) := by
  induction limit with
  | zero => exact .inl ⟨object, .here object⟩
  | succ limit ih =>
      rcases ih with ⟨last, passes⟩ | ⟨passed, last, less, passes, stops⟩
      · rcases concords.goes passes with further | stops
        · exact .inl further
        · exact .inr ⟨limit, last, Nat.lt_succ_self limit, passes, stops⟩
      · exact .inr ⟨passed, last, Nat.lt_succ_of_lt less, passes, stops⟩

namespace Machine

/-- A chain ends, is too long, or is blocked before either. -/
theorem Concords.cases (concords : m.Concords object key)
    : (∃ passed ref t, m.Ends object key passed ref t) ∨ m.TooLong object key
      ∨ m.Blocked object key := by
  rcases concords.leads Vm.maxChain with
    tooLong | ⟨passed, last, within, passes, ⟨ref, t, rfl, found, ends⟩ | blocks⟩
  · exact .inr (.inl tooLong)
  · exact .inl ⟨passed, ref, t, within, passes, found, ends⟩
  · exact .inr (.inr ⟨passed, last, within, passes, blocks⟩)

/-- A read is one of the table where the chain ends. -/
theorem Ends.index (ends : m.Ends object key passed ref t) (invoke : Invoke) (depth : Nat)
    : Vm.index invoke object key depth m = .ok (.orNil (t.get? key)) m := by
  rw [Vm.index_of_passes ends.passes ends.within.le,
    ← Nat.sub_add_cancel (Nat.sub_pos_of_lt ends.within)]
  refine (Run.bind_ok (Vm.table_of_get ends.found)).trans ?_
  cases held : t.get? key with
  | some value => rfl
  | none =>
      have handled := ends.last.resolve_left (by simp [held])
      exact Run.bind_ok handled

/-- A write is one of the table where the chain ends. -/
theorem Ends.assign (ends : m.Ends object key passed ref t) (concords : m.Concords object key)
    (named : key.isKey = true) (owned : m.heap.owns value = true) (invoke : Invoke) (depth : Nat)
    : Vm.assign invoke object key value depth m
      = if t.readOnly = true then .error (.failed .readOnly) m
        else .ok () (m.stored ref key value) := by
  have direct : Vm.writeHandler t key m = .ok .nil m := by
    cases held : t.get? key with
    | some value =>
        rw [Vm.writeHandler, held]
        rfl
    | none =>
        have handled := ends.last.resolve_left (by simp [held])
        obtain ⟨next, -, read, written⟩ := concords ends.passes ends.found
        cases handled.symm.trans read
        exact (Vm.writeHandler_of_lacks held m).trans written
  rw [Vm.assign_of_passes named owned (concords.crosses ends.passes) ends.within.le,
    ← Nat.sub_add_cancel (Nat.sub_pos_of_lt ends.within)]
  refine (Run.bind_ok (Vm.checkOwner_of_owns owned)).trans ?_
  refine (Run.bind_ok (Vm.table_of_get ends.found)).trans ((Run.bind_ok direct).trans ?_)
  cases t.readOnly with
  | true => rfl
  | false => exact Run.bind_ok (Vm.table_of_get ends.found)

theorem TooLong.index (tooLong : m.TooLong object key) (invoke : Invoke) (depth : Nat)
    : Vm.index invoke object key depth m = .error (.failed .readChain) m := by
  obtain ⟨last, passes⟩ := tooLong
  rw [Vm.index_of_passes passes le_rfl, Nat.sub_self]
  rfl

theorem TooLong.assign (tooLong : m.TooLong object key) (concords : m.Concords object key)
    (named : key.isKey = true) (owned : m.heap.owns value = true) (invoke : Invoke) (depth : Nat)
    : Vm.assign invoke object key value depth m = .error (.failed .writeChain) m := by
  obtain ⟨last, passes⟩ := tooLong
  rw [Vm.assign_of_passes named owned (concords.crosses passes) le_rfl, Nat.sub_self]
  rfl

/-- Where a chain is blocked, reading and writing fail alike. -/
theorem Blocked.accesses (blocked : m.Blocked object key) (concords : m.Concords object key)
    (named : key.isKey = true)
    : ∃ fault, fault ≠ .readChain ∧ fault ≠ .writeChain
        ∧ (∀ invoke depth, Vm.index invoke object key depth m = .error (.failed fault) m)
        ∧ ∀ invoke value depth, m.heap.owns value = true
            → Vm.assign invoke object key value depth m = .error (.failed fault) m := by
  obtain ⟨passed, last, within, passes, blocks⟩ := blocked
  have more : Vm.maxChain - passed = (Vm.maxChain - passed - 1) + 1 :=
    (Nat.sub_add_cancel (Nat.sub_pos_of_lt within)).symm
  have read (invoke : Invoke) (depth : Nat)
      : Vm.index invoke object key depth m
        = Vm.indexChain invoke key depth (Vm.maxChain - passed) last m :=
    Vm.index_of_passes passes within.le
  have written (invoke : Invoke) (value : Value) (depth : Nat) (owned : m.heap.owns value = true)
      : Vm.assign invoke object key value depth m
        = Vm.assignChain invoke key value depth (Vm.maxChain - passed) last m :=
    Vm.assign_of_passes named owned (concords.crosses passes) within.le
  rw [more] at read written
  cases last with
  | table ref =>
      obtain ⟨miss, missed⟩ := blocks
      have missed := Vm.table_of_miss missed
      refine ⟨.ofMiss miss, by cases miss <;> simp [Fault.ofMiss],
        by cases miss <;> simp [Fault.ofMiss], fun invoke depth => ?_,
        fun invoke value depth owned => ?_⟩
      · exact (read invoke depth).trans (Run.bind_error missed)
      · refine (written invoke value depth owned).trans ?_
        exact (Run.bind_ok (Vm.checkOwner_of_owns owned)).trans (Run.bind_error missed)
  | _ => exact ⟨.misuse .index _, by simp, by simp, read, written⟩

-----------------------------------------------------------------------------------------
-- After a write
-----------------------------------------------------------------------------------------

theorem get_stored (found : m.heap.tables.get ref.handle = .ok t) (key value : Value)
    : (m.stored ref key value).heap.tables.get ref.handle = .ok (t.set key value) := by
  change (m.heap.tables.modify _ _).get _ = _
  rw [Arena.get_modify_eq, if_pos rfl, found]
  rfl

/-- A write changes one key of one table. -/
theorem field?_stored (parted : m.AllTables (Table.Parted 1)) (number : key.isNaN = false)
    (found : m.heap.tables.get ref.handle = .ok t) (value : Value) (other : TableRef) (k : Value)
    : (m.stored ref key value).field? other k
      = if other = ref ∧ (key == k) = true then Table.present value else m.field? other k := by
  by_cases same : other = ref
  · subst same
    have reads := (parted _ _ found).set number value
    rw [field?, field?, get_stored found, found]
    exact (reads.2 k).trans (by simp [Except.toOption])
  · rw [field?, field?, get_stored_of_ne same, if_neg fun both => same both.1]

/-- A metatable still says what it said, unless that is what is written. -/
theorem handler_stored (parted : m.AllTables (Table.Parted 1)) (number : key.isNaN = false)
    (handled : Vm.handler t name m = .ok next m)
    (apart : key = .string name → t.metatable ≠ some ref) (value : Value)
    : Vm.handler t name (m.stored ref key value) = .ok next (m.stored ref key value) := by
  unfold Vm.handler at handled ⊢
  cases attached : t.metatable with
  | none =>
      rw [attached] at handled
      cases handled
      rfl
  | some mt =>
      rw [attached] at handled apart
      rcases found : m.heap.tables.get mt.handle with miss | held
      · cases (Run.bind_error (Vm.table_of_miss found)).symm.trans handled
      cases (Run.bind_ok (Vm.table_of_get found)).symm.trans handled
      by_cases same : mt = ref
      · subst same
        have reads := (parted _ _ found).set number value
        have other : (key == .string name) = false :=
          Bool.eq_false_iff.mpr fun equal => apart (Value.beq_string.mp equal) rfl
        have field : (held.set key value).field? name = held.field? name :=
          (reads.2 (.string name)).trans (by rw [other]; rfl)
        rw [← field]
        exact Run.bind_ok (Vm.table_of_get (get_stored found key value))
      · exact Run.bind_ok (Vm.table_of_get ((get_stored_of_ne same m key value).trans found))

/-- A way that is not turned aside is still there, by induction over it. -/
theorem Passes.stored (parted : m.AllTables (Table.Parted 1)) (number : key.isNaN = false)
    (passes : m.Passes name key passed object last) (value : Value)
    (apart : ∀ before via t, before < passed → m.Passes name key before object (.table via)
      → m.heap.tables.get via.handle = .ok t
      → via ≠ ref ∧ (key = .string name → t.metatable ≠ some ref))
    : (m.stored ref key value).Passes name key passed object last := by
  induction passes with
  | here => exact .here _
  | on found lacks handled there further _ ih =>
      obtain ⟨elsewhere, metatable⟩ := apart 0 _ _ (Nat.succ_pos _) (.here _) found
      refine .on ((get_stored_of_ne elsewhere m key value).trans found) lacks
        (handler_stored parted number handled metatable value) there further (ih ?_)
      intro before via t less passes held
      exact apart (before + 1) via t (Nat.succ_lt_succ less)
        (.on found lacks handled there further passes) held

/-- Tables on the way lack the key and go on, so they are not where it ends. -/
theorem Passes.apart (passes : m.Passes "__index" key passed object last) {before : Nat}
    {via : TableRef} {held : Table} (less : before < passed)
    (part : m.Passes "__index" key before object (.table via))
    (found : m.heap.tables.get via.handle = .ok held)
    : held.get? key = none
        ∧ ∃ next, next.isNil = false ∧ Vm.handler held "__index" m = .ok next m := by
  induction passes generalizing before with
  | here => exact absurd less (Nat.not_lt_zero _)
  | on held lacks handled there further _ ih =>
      cases part with
      | here =>
          cases found.symm.trans held
          exact ⟨lacks, _, there, handled⟩
      | on again _ onwards _ _ rest =>
          cases held.symm.trans again
          cases handled.symm.trans onwards
          exact ih (Nat.lt_of_succ_lt_succ less) rest

/-- What was written is read back, unless the chain is turned aside. -/
theorem Ends.readsBack (ends : m.Ends object key passed ref t)
    (parted : m.AllTables (Table.Parted 1)) (number : key.isNaN = false)
    (straight : ¬m.Diverts object key passed ref) (there : value ≠ .nil) (invoke : Invoke)
    (depth : Nat)
    : Vm.index invoke object key depth (m.stored ref key value)
      = .ok value (m.stored ref key value) := by
  have way : (m.stored ref key value).Passes "__index" key passed object (.table ref) := by
    refine ends.passes.stored parted number value fun before via held less part found => ?_
    constructor
    · rintro rfl
      obtain ⟨lacks, next, further, handled⟩ := ends.passes.apart less part found
      cases found.symm.trans ends.found
      rcases ends.last with holds | last
      · simp [lacks] at holds
      · cases last.symm.trans handled
        cases further
    · intro named attached
      exact straight ⟨named, before, via, held, less, part, found, attached⟩
  have reads : (t.set key value).get? key = some value := by
    have set := (parted _ _ ends.found).set number value
    rw [set.2, if_pos (Value.beq_self_iff.mpr number)]
    exact Table.present_eq_some.mpr ⟨rfl, there⟩
  have held : ((t.set key value).get? key).isSome = true := by rw [reads]; rfl
  have ends : (m.stored ref key value).Ends object key passed ref (t.set key value) :=
    ⟨ends.within, way, get_stored ends.found key value, .inl held⟩
  rw [ends.index, reads]
  rfl

-----------------------------------------------------------------------------------------
-- In every heap
-----------------------------------------------------------------------------------------

/-- Reading and writing agree along every chain where metatables do. -/
theorem Concords.agrees (concords : m.Concords object key)
    (parted : m.AllTables (Table.Parted 1)) (named : key.isKey = true)
    : m.AgreesAlong object key := by
  have number := Value.isNaN_of_isKey named
  constructor
  case others => exact fun value ends => field?_stored parted number ends.found value
  case readsBack =>
    intro _ _ _ value invoke depth ends straight there
    exact ends.readsBack parted number straight there invoke depth
  case stores =>
    intro invoke value depth after
    constructor
    · intro ran
      cases owned : m.heap.owns value with
      | false =>
          obtain ⟨fault, -, failed⟩ := Vm.assign_of_foreign named owned object
          cases failed.symm.trans ran
      | true =>
          refine ⟨rfl, ?_⟩
          rcases concords.cases with ⟨passed, ref, t, ends⟩ | tooLong | blocked
          · have wrote := ends.assign concords named owned invoke depth
            rw [ran] at wrote
            split at wrote
            · cases wrote
            · rename_i writable
              cases wrote
              exact ⟨passed, ref, t, ends, by simpa using writable, rfl⟩
          · cases (tooLong.assign concords named owned invoke depth).symm.trans ran
          · obtain ⟨fault, -, -, -, failed⟩ := blocked.accesses concords named
            cases (failed invoke value depth owned).symm.trans ran
    · rintro ⟨owned, passed, ref, t, ends, writable, rfl⟩
      rw [ends.assign concords named owned, writable]
      rfl
  case readTooLong =>
    intro invoke depth after
    constructor
    · intro ran
      rcases concords.cases with ⟨passed, ref, t, ends⟩ | tooLong | blocked
      · cases (ends.index invoke depth).symm.trans ran
      · cases (tooLong.index invoke depth).symm.trans ran
        exact ⟨tooLong, rfl⟩
      · obtain ⟨fault, other, -, failed, -⟩ := blocked.accesses concords named
        cases (failed invoke depth).symm.trans ran
        exact absurd rfl other
    · rintro ⟨tooLong, rfl⟩
      exact tooLong.index invoke depth
  case writeTooLong =>
    intro invoke value depth after
    constructor
    · intro ran
      cases owned : m.heap.owns value with
      | false =>
          obtain ⟨fault, other, failed⟩ := Vm.assign_of_foreign named owned object
          cases failed.symm.trans ran
          exact absurd rfl other
      | true =>
          rcases concords.cases with ⟨passed, ref, t, ends⟩ | tooLong | blocked
          · have wrote := ends.assign concords named owned invoke depth
            rw [ran] at wrote
            split at wrote <;> cases wrote
          · cases (tooLong.assign concords named owned invoke depth).symm.trans ran
            exact ⟨⟨rfl, tooLong⟩, rfl⟩
          · obtain ⟨fault, -, other, -, failed⟩ := blocked.accesses concords named
            cases (failed invoke value depth owned).symm.trans ran
            exact absurd rfl other
    · rintro ⟨⟨owned, tooLong⟩, rfl⟩
      exact tooLong.assign concords named owned invoke depth

end Machine

/-- The fault that an operation fails with. -/
def Vm.fault? {α : Type} : EStateM.Result (Halt Fault) Machine α → Option Fault
  | .error (.failed fault) _ => some fault
  | _ => none

theorem Vm.fault?_eq_some {α : Type} {outcome : EStateM.Result (Halt Fault) Machine α}
    {fault : Fault} (fails : fault? outcome = some fault)
    : ∃ after, outcome = .error (.failed fault) after := by
  rcases outcome with _ | ⟨halt, after⟩
  · cases fails
  · cases halt with
    | failed error =>
        cases fails
        exact ⟨after, rfl⟩
    | outOfFuel => cases fails

/-- Whether what a table lacks is sent on by its metatable, to the same table for reading and
writing.
-/
def Machine.sendsOn (m : Machine) (ref mt next : TableRef) : Bool :=
  (m.heap.tables.get ref.handle).toOption.any (·.metatable == some mt)
    && (m.field? mt (.string "__index")).any (· == .table next)
    && (m.field? mt (.string "__newindex")).any (· == .table next)

theorem Value.eq_table_of_beq {value : Value} {ref : TableRef}
    (equal : (value == .table ref) = true)
    : value = .table ref := by
  rcases beq_cases equal with same | ⟨x, y, -, other, -⟩
  · exact same
  · cases other

theorem Machine.handlers_of_sendsOn {mt next : TableRef} (sends : m.sendsOn ref mt next = true)
    : ∃ t, m.heap.tables.get ref.handle = .ok t
        ∧ Vm.handler t "__index" m = .ok (.table next) m
        ∧ Vm.handler t "__newindex" m = .ok (.table next) m := by
  rw [sendsOn, Bool.and_eq_true, Bool.and_eq_true] at sends
  obtain ⟨⟨attached, read⟩, written⟩ := sends
  rcases found : m.heap.tables.get ref.handle with miss | t
  · simp [found, Except.toOption] at attached
  rcases known : m.heap.tables.get mt.handle with miss | shared
  · simp [field?, known, Except.toOption] at read
  have attached : t.metatable = some mt := by simpa [found, Except.toOption] using attached
  have said {name : String} (sends : (m.field? mt (.string name)).any (· == .table next) = true)
      : Vm.handler t name m = .ok (.table next) m := by
    rcases named : m.field? mt (.string name) with - | value
    · rw [named] at sends
      cases sends
    rw [named] at sends
    obtain rfl := Value.eq_table_of_beq sends
    have field : shared.get? (.string name) = some (.table next) := by
      simpa [field?, known, Except.toOption] using named
    unfold Vm.handler
    rw [attached]
    refine (Run.bind_ok (Vm.table_of_get known)).trans ?_
    rw [show shared.field? name = some (.table next) from field]
    rfl
  exact ⟨t, rfl, said read, said written⟩

namespace Situation

/-- In every heap that a runtime gets into: where metatables agree, reading and writing do. -/
theorem chains_of_reached (reached : s.Reached) : s.machine.ChainLaws where
  agrees named concords := concords.agrees reached.parted named
  cyclic before around := by
    obtain ⟨last, rest⟩ := around.circle Vm.maxChain
    exact (before.trans rest).take (Nat.le_add_left ..)
  fails {invoke object key value depth halt after} failed := by
    rcases (Vm.checkKey_looks key).outcome s.machine with ⟨⟨⟩, ran⟩ | ⟨fault, ran⟩
    · exact Vm.assignChain_fails ((Run.bind_ok ran).symm.trans failed)
    · cases (Run.bind_error ran).symm.trans failed
      exact .inl rfl
  foreign named foreign := Vm.assign_of_foreign_table named foreign _

/-- A write to an object whose metatable names another table ends in that one and is read back. -/
theorem chains_of_reached_base
    : ∃ (s : Situation) (object base : TableRef) (key value : Value),
        s.Reached ∧ s.machine.ChainLaws ∧ key.isKey = true
          ∧ s.machine.Concords (.table object) key
          ∧ Vm.assign (Vm.call 0) (.table object) key value 0 s.machine
            = .ok () (s.machine.stored base key value)
          ∧ Vm.index (Vm.call 0) (.table object) key 0 (s.machine.stored base key value)
            = .ok value (s.machine.stored base key value) := by
  let object : TableRef := ⟨⟨1, 1, 0⟩⟩
  let mt : TableRef := ⟨⟨1, 2, 0⟩⟩
  let base : TableRef := ⟨⟨1, 3, 0⟩⟩
  let key : Value := .string "size"
  let requests : List Request :=
    [.newTable, .newTable, .newTable, .rawSet mt (.string "__index") (.table base),
      .rawSet mt (.string "__newindex") (.table base), .setMetatable object (some mt)]
  obtain ⟨m, reached, sends, absent, based, owned⟩
      : ∃ m, Reached ⟨m, [], []⟩ ∧ m.sendsOn object mt base = true
          ∧ (m.field? object key).isNone = true
          ∧ (m.heap.tables.get base.handle).toOption.any
              (fun t => t.metatable == none && !t.readOnly) = true
          ∧ m.heap.owns (.number 5) = true :=
    ⟨(Machine.create 1 {}).served requests, Reached.served rfl ⟨1, {}, .refl⟩,
      by decide +kernel, by decide +kernel, by decide +kernel, by decide +kernel⟩
  obtain ⟨t, found, read, written⟩ := Machine.handlers_of_sendsOn sends
  have lacks : t.get? key = none := by
    simpa [Machine.field?, found, Except.toOption] using absent
  obtain ⟨last, lasting, bare, writable⟩
      : ∃ last, m.heap.tables.get base.handle = .ok last ∧ last.metatable = none
          ∧ last.readOnly = false := by
    rcases held : m.heap.tables.get base.handle with miss | last
    · simp [held, Except.toOption] at based
    · exact ⟨last, rfl, by simpa [held, Except.toOption] using based⟩
  have ends (name : String) : Vm.handler last name m = .ok .nil m := by
    unfold Vm.handler
    rw [bare]
    rfl
  have further : m.Concords (.table base) key :=
    Machine.Concords.of_next lasting (ends _) (ends _) rfl (m.concords_nil key)
  have concords : m.Concords (.table object) key :=
    Machine.Concords.of_next found read written rfl further
  have laws : m.ChainLaws := chains_of_reached reached
  have agrees := laws.agrees (show key.isKey = true from rfl) concords
  have way : m.Ends (.table object) key 1 base last :=
    ⟨by decide, .on found lacks read rfl rfl (.here _), lasting, .inr (ends _)⟩
  have straight : ¬m.Diverts (.table object) key 1 base := fun diverts => by
    have named : Value.string "size" = .string "__index" := diverts.1
    simp at named
  exact ⟨⟨m, [], []⟩, object, base, key, .number 5, reached, laws, rfl, concords,
    agrees.stores.mpr ⟨owned, 1, base, last, way, writable, rfl⟩,
    agrees.readsBack _ _ way straight (by simp)⟩

/-- A write that changes where the metatable on its way sends accesses is not read back: what was
written stands in the way. And a value of another heap is refused before a chain is too long.
-/
theorem chains_diverted
    : ∃ (s : Situation) (object mt : TableRef) (key value foreign : Value),
        s.Reached
          ∧ (key.isKey = true ∧ s.machine.Concords (.table object) key ∧ value ≠ .nil
              ∧ ∃ after last,
                  Vm.assign (Vm.call 0) (.table object) key value 0 s.machine = .ok () after
                    ∧ Vm.index (Vm.call 0) (.table object) key 0 after
                      = .error (.failed (.misuse .index .number)) last)
          ∧ (s.machine.TooLong (.table mt) (.string "size")
              ∧ s.machine.Concords (.table mt) (.string "size")
              ∧ Vm.assign (Vm.call 0) (.table mt) (.string "size") foreign 0 s.machine
                = .error (.failed .foreignHandle) s.machine) := by
  let object : TableRef := ⟨⟨1, 1, 0⟩⟩
  let mt : TableRef := ⟨⟨1, 2, 0⟩⟩
  let key : Value := .string "__index"
  let foreign : Value := .table ⟨⟨2, 0, 0⟩⟩
  let requests : List Request :=
    [.newTable, .newTable, .rawSet mt key (.table mt), .rawSet mt (.string "__newindex") (.table mt),
      .setMetatable object (some mt), .setMetatable mt (some mt)]
  obtain ⟨m, reached, sends, around, lacks, holds, absent, writable, owned, unowned, fails⟩
      : ∃ m, Reached ⟨m, [], []⟩ ∧ m.sendsOn object mt mt = true ∧ m.sendsOn mt mt mt = true
          ∧ (m.field? object key).isNone = true ∧ (m.field? mt key).isSome = true
          ∧ (m.field? mt (.string "size")).isNone = true
          ∧ (m.heap.tables.get mt.handle).toOption.any (!·.readOnly) = true
          ∧ m.heap.owns (.number 5) = true ∧ m.heap.owns foreign = false
          ∧ Vm.fault? (Vm.index (Vm.call 0) (.table object) key 0 (m.stored mt key (.number 5)))
            = some (.misuse .index .number) :=
    ⟨(Machine.create 1 {}).served requests, Reached.served rfl ⟨1, {}, .refl⟩,
      by decide +kernel, by decide +kernel, by decide +kernel, by decide +kernel,
      by decide +kernel, by decide +kernel, by decide +kernel, by decide +kernel,
      by decide +kernel⟩
  obtain ⟨t, found, read, written⟩ := Machine.handlers_of_sendsOn sends
  obtain ⟨last, lasting, reread, rewritten⟩ := Machine.handlers_of_sendsOn around
  have lacks : t.get? key = none := by
    simpa [Machine.field?, found, Except.toOption] using lacks
  have holds : (last.get? key).isSome = true := by
    simpa [Machine.field?, lasting, Except.toOption] using holds
  have absent : last.get? (.string "size") = none := by
    simpa [Machine.field?, lasting, Except.toOption] using absent
  have writable : last.readOnly = false := by
    simpa [lasting, Except.toOption] using writable
  have loops := Machine.concords_of_loop lasting reread rewritten
  have concords : m.Concords (.table object) key :=
    Machine.Concords.of_next found read written rfl (loops key)
  have way : m.Ends (.table object) key 1 mt last :=
    ⟨by decide, .on found lacks read rfl rfl (.here _), lasting, .inl holds⟩
  have wrote := way.assign concords rfl owned (Vm.call 0) 0
  rw [writable] at wrote
  obtain ⟨after, failed⟩ := Vm.fault?_eq_some fails
  have circle : m.Passes "__index" (.string "size") 1 (.table mt) (.table mt) :=
    .on lasting absent reread rfl rfl (.here _)
  exact ⟨⟨m, [], []⟩, object, mt, key, .number 5, foreign, reached,
    ⟨rfl, concords, by simp, _, after, wrote, failed⟩, circle.circle Vm.maxChain, loops _,
    Vm.assign_of_foreign_table rfl unowned mt⟩

end Situation
end HookMachine
