import HookMachine.Proofs.Deeds.Runs

/-!
Protected tables. As long as no point of a run turns the protection of a table off or hooks a slot of
it, its fields stay as they are, and whoever would write them is refused.
-/

namespace HookMachine

/-- The table at `ref` has the fields of `t` and is protected. -/
def Machine.Shields (m : Machine) (ref : TableRef) (t : Table) : Prop :=
  ∃ now, m.heap.tables.get ref.handle = .ok now ∧ now.array = t.array ∧ now.hash = t.hash
    ∧ now.readOnly = true

/-- A point leaves the protection of a table on. -/
structure Point.Spares (point : Point) (ref : TableRef) : Prop where
  live : point.machine.heap.isLive (.table ref) = true
  shield : ¬point.Grants (.shield ref false)
  patch : ¬point.Grants (.patch ref)

/-- A key and a value that may be written. -/
structure Machine.Admits (m : Machine) (key value : Value) : Prop where
  key : Vm.checkKey key = pure ()
  value : m.heap.owns value = true

/-- Whoever would write into the table at `ref` fails and changes nothing. -/
structure Machine.Refuses (m : Machine) (ref : TableRef) : Prop where
  rawSet {key value} (admits : m.Admits key value)
    : Vm.rawSet ref key value m = .error (.failed .readOnly) m
  assign {invoke object key value depth} (admits : m.Admits key value)
    (delivers : m.Delivers key ref Vm.maxChain object)
    : Vm.assign invoke object key value depth m = .error (.failed .readOnly) m
  setTable {invoke frame i key value} (first : Vm.operand frame i.b m = .ok key m)
    (second : Vm.operand frame i.c m = .ok value m) (admits : m.Admits key value)
    (delivers : m.Delivers key ref Vm.maxChain (frame.read i.a))
    : Vm.execute invoke frame .setTable i m = .error (.failed .readOnly) m
  setGlobal {invoke frame i key} (name : Vm.constant frame i.bx m = .ok key m)
    (admits : m.Admits key (frame.read i.a))
    (delivers : m.Delivers key ref Vm.maxChain (.table frame.environment))
    : Vm.execute invoke frame .setGlobal i m = .error (.failed .readOnly) m
  setList {invoke frame i} (target : frame.read i.a = .table ref)
    : Vm.execute invoke frame .setList i m = .error (.failed .readOnly) m
  askRawSet {invoke key value} (admits : m.Admits key value)
    : serve invoke (.rawSet ref key value) m = .error (.failed (.fault .readOnly)) m
  askAssign {invoke object key value} (admits : m.Admits key value)
    (delivers : m.Delivers key ref Vm.maxChain object)
    : serve invoke (.assign object key value) m = .error (.failed (.fault .readOnly)) m

variable {m after : Machine} {ref : TableRef} {t : Table}

-----------------------------------------------------------------------------------------
-- Writers
-----------------------------------------------------------------------------------------

theorem Machine.Admits.enter {key value : Value} (admits : m.Admits key value)
    : m.enter.Admits key value :=
  ⟨admits.key, admits.value⟩

/-- A key that may be written passes its check. -/
theorem Machine.Admits.checkKey {key value : Value} (admits : m.Admits key value)
    : Vm.checkKey key m = .ok () m := by
  rw [admits.key]
  rfl

theorem Vm.rawSet_of_shields (shields : m.Shields ref t) {key value : Value}
    (admits : m.Admits key value)
    : rawSet ref key value m = .error (.failed .readOnly) m := by
  obtain ⟨now, found, -, -, protected_⟩ := shields
  refine (Run.bind_ok admits.checkKey).trans ?_
  refine (Run.bind_ok (checkOwner_of_owns admits.value)).trans ?_
  refine (Run.bind_ok (table_of_get found)).trans ?_
  rw [if_pos protected_]
  rfl

/-- A chain of handlers is followed to its end, by induction over it. -/
theorem Vm.assignChain_of_delivers (shields : m.Shields ref t) {invoke : Invoke}
    {key value object : Value} {depth limit : Nat} (owned : m.heap.owns value = true)
    (delivers : m.Delivers key ref limit object)
    : assignChain invoke key value depth limit object m = .error (.failed .readOnly) m := by
  induction delivers with
  | ends found direct =>
      obtain ⟨now, held, -, -, protected_⟩ := shields
      cases held.symm.trans found
      refine (Run.bind_ok (checkOwner_of_owns owned)).trans ?_
      refine (Run.bind_ok (table_of_get found)).trans ((Run.bind_ok direct).trans ?_)
      rw [if_pos (show Value.nil.isNil = true from rfl), if_pos protected_]
      rfl
  | passes found handled some object rest ih =>
      refine (Run.bind_ok (checkOwner_of_owns owned)).trans ?_
      refine (Run.bind_ok (table_of_get found)).trans ((Run.bind_ok handled).trans ?_)
      rw [some, object]
      exact ih

theorem Vm.assign_of_delivers (shields : m.Shields ref t) {invoke : Invoke}
    {object key value : Value} {depth : Nat} (admits : m.Admits key value)
    (delivers : m.Delivers key ref maxChain object)
    : assign invoke object key value depth m = .error (.failed .readOnly) m :=
  (Run.bind_ok admits.checkKey).trans (assignChain_of_delivers shields admits.value delivers)

theorem Machine.Shields.refuses (shields : m.Shields ref t) : m.Refuses ref := by
  constructor
  case rawSet => exact Vm.rawSet_of_shields shields
  case assign => exact Vm.assign_of_delivers shields
  case setTable =>
    intro invoke frame i key value first second admits delivers
    refine (Run.bind_ok first).trans ((Run.bind_ok second).trans ?_)
    exact Run.bind_error (Vm.assign_of_delivers shields admits delivers)
  case setGlobal =>
    intro invoke frame i key name admits delivers
    exact (Run.bind_ok name).trans (Run.bind_error (Vm.assign_of_delivers shields admits delivers))
  case setList =>
    intro invoke frame i target
    obtain ⟨now, found, -, -, protected_⟩ := shields
    change Vm.setList frame i m = _
    unfold Vm.setList
    rw [target]
    refine (Run.bind_ok (Vm.table_of_get found)).trans ?_
    rw [if_pos protected_]
    rfl
  case askRawSet => exact fun admits => Run.lift_error (Vm.rawSet_of_shields shields admits)
  case askAssign =>
    intro invoke object key value admits delivers
    have entered : m.enter.Shields ref t := shields
    have refused : Vm.assign invoke object key value 0 m.enter
        = .error (.failed .readOnly) m.enter :=
      Vm.assign_of_delivers entered admits.enter (delivers.of_tables rfl)
    refine Run.lift_error ?_
    unfold Vm.enter
    rw [refused]
    rfl

-----------------------------------------------------------------------------------------
-- Single changes
-----------------------------------------------------------------------------------------

/-- What does not unprotect or patch a table of the origin leaves its fields as they are. -/
theorem Scope.Change.shields {s : Scope} (change : s.Change m after)
    (there : s.origin.heap.isLive (.table ref) = true) (shield : ¬s.allows (.shield ref false))
    (patch : ¬s.allows (.patch ref)) (shields : m.Shields ref t)
    : after.Shields ref t := by
  obtain ⟨before, found, array, hash, shut⟩ := shields
  obtain ⟨now, held, turns⟩ := change.turns found there
  have fields : now.array = before.array ∧ now.hash = before.hash := by
    rcases turns.fields with same | ⟨writable, -⟩ | allowed
    · exact same
    · exact absurd (writable.symm.trans shut) Bool.false_ne_true
    · exact absurd allowed patch
  refine ⟨now, held, fields.1.trans array, fields.2.trans hash, ?_⟩
  rcases turns.readOnly with same | allowed
  · exact same.trans shut
  · cases on : now.readOnly with
    | true => rfl
    | false => exact absurd (on ▸ allowed) shield

theorem Scope.Leads.shields {s : Scope} (leads : s.Leads m after)
    (there : s.origin.heap.isLive (.table ref) = true) (shield : ¬s.allows (.shield ref false))
    (patch : ¬s.allows (.patch ref)) (shields : m.Shields ref t)
    : after.Shields ref t := by
  induction leads with
  | refl => exact shields
  | tail _ change ih => exact change.shields there shield patch ih

/-- A table that survives a collection is the one that was there, its mark aside. -/
theorem Heap.table_of_collect {heap : Heap} {around : Surroundings} {roots : List Value}
    {handle : Handle} {now : Table}
    (found : (heap.collect around roots).2.tables.get handle = .ok now)
    : ∃ before, heap.tables.get handle = .ok before ∧ now = before.mark false := by
  have wiped := congrArg tables (clearMarks_markAll around heap (heap.anchors roots))
  have kept := ((Arena.get_map_retain wiped).mp found).1
  change (heap.tables.map _).get handle = _ at kept
  rw [Arena.get_map] at kept
  rcases held : heap.tables.get handle with miss | before <;> rw [held] at kept
  · cases kept
  · cases kept
    exact ⟨before, rfl, rfl⟩

/-- A table that is there after a collection has what it had. -/
theorem Machine.table_of_collect {before : Table}
    (found : m.heap.tables.get ref.handle = .ok before)
    (live : m.collect.2.heap.isLive (.table ref) = true)
    : ∃ now, m.collect.2.heap.tables.get ref.handle = .ok now
        ∧ now = { before with marked := now.marked } := by
  unfold collect at live ⊢
  split at live
  · rename_i running
    rw [if_pos running]
    exact ⟨before, found, rfl⟩
  · rename_i idle
    rw [if_neg idle]
    obtain ⟨now, held⟩ := Arena.contains_iff.mp live
    obtain ⟨was, known, rfl⟩ := Heap.table_of_collect held
    cases known.symm.trans found
    exact ⟨_, held, rfl⟩

theorem Machine.Shields.collect (shields : m.Shields ref t)
    (live : m.collect.2.heap.isLive (.table ref) = true)
    : m.collect.2.Shields ref t := by
  obtain ⟨before, found, kept⟩ := shields
  obtain ⟨now, held, same⟩ := Machine.table_of_collect found live
  exact ⟨now, held, same ▸ kept⟩

/-- A point that spares a table leaves its fields as they are, as long as it is there. -/
theorem Point.Moves.shields {point : Point} (moves : point.Moves m) (spares : point.Spares ref)
    (shields : point.machine.Shields ref t) (live : m.heap.isLive (.table ref) = true)
    : m.Shields ref t := by
  rcases moves with ⟨⟨outset, set, leads⟩, -⟩ | ⟨-, rfl⟩
  · have begins : outset.Shields ref t := by cases set <;> exact shields
    exact leads.shields spares.live spares.shield spares.patch begins
  · exact shields.collect live

-----------------------------------------------------------------------------------------
-- Runs
-----------------------------------------------------------------------------------------

/-- Where nothing is called or asked for a protected table is spared. -/
theorem Machine.Shields.spares {point : Point} (shields : point.machine.Shields ref t)
    (still : point.mark.still = true)
    : point.Spares ref := by
  obtain ⟨now, found, -⟩ := shields
  exact ⟨Arena.contains_iff.mpr ⟨now, found⟩, Point.not_grants_of_still still nofun,
    Point.not_grants_of_still still nofun⟩

/-- However long a host goes on, as long as every point before spares a protected table its fields
are as they were, it is protected, and whoever would write into it is refused; so it is in the end.
-/
theorem HostProgram.protected_table_kept (session : HostProgram) (fuel : Nat)
    (shields : m.Shields ref t)
    : (∀ earlier here later, session.trace fuel m = earlier ++ here :: later
        → (∀ point ∈ earlier, point.Spares ref)
        → here.machine.heap.isLive (.table ref) = true
        → here.machine.Shields ref t ∧ here.machine.Refuses ref)
      ∧ ∀ ends, ends = ((Plan.program none 0 session).run (Vm.call fuel) m).last
        → (∀ point ∈ session.trace fuel m, point.Spares ref)
        → ends.heap.isLive (.table ref) = true
        → ends.Shields ref t ∧ ends.Refuses ref := by
  let P (log : List Point) (m : Machine) : Prop :=
    (∀ point ∈ log, point.Spares ref) → m.heap.isLive (.table ref) = true → m.Shields ref t
  have step (log : List Point) (point : Point) (after : Machine) (held : P log point.machine)
      (moves : point.Moves after) (_ : point.Opened log after)
      : P (log ++ [point]) after := by
    intro spared live
    have spares := spared point (by simp)
    have before := held (fun other member => spared other (by simp [member])) spares.live
    exact moves.shields spares before live
  have linked := session.linked fuel m
  have opened {points : List Point} {last : Machine}
      : Point.Opened [] ⟨.left, m⟩ (reached points last) :=
    Point.opened_of_ne (by nofun) _
  have begins {points : List Point} (spared : ∀ point ∈ points, point.Spares ref)
      : ∀ point ∈ [] ++ ⟨.left, m⟩ :: points, point.Spares ref := by
    intro point member
    rcases List.mem_cons.mp member with rfl | member
    · exact Machine.Shields.spares shields rfl
    · exact spared point member
  constructor
  · intro earlier here later split spared live
    have kept := (split ▸ linked).holds_at (P := P) step [] (fun _ _ => shields)
      opened (begins spared) live
    exact ⟨kept, kept.refuses⟩
  · rintro ends rfl spared live
    have kept := linked.holds_last (P := P) step [] (fun _ _ => shields)
      opened (begins spared) live
    exact ⟨kept, kept.refuses⟩

/-- A host tries to write into a protected table of the runtime. -/
theorem HostProgram.protected_table_kept_tried
    : ∃ (m : Machine) (ref : TableRef) (t : Table) (value : Value) (ends : Machine),
        ends = ((Plan.program none 0 (.ask (.rawSet ref (.string "k") value) fun _ =>
            .finish [])).run (Vm.call 1) m).last
          ∧ t.hash = [(.string "k", .boolean true)] ∧ m.Shields ref t
          ∧ m.Admits (.string "k") value ∧ ends.Shields ref t ∧ ends.Refuses ref := by
  -- What else there is in the machine plays no part.
  obtain ⟨before, -⟩ : ∃ before, before = Machine.create 1 {} := ⟨_, rfl⟩
  let t : Table := { hash := [(.string "k", .boolean true)], readOnly := true }
  let ref : TableRef := ⟨(before.heap.tables.insert t).1⟩
  let m : Machine := { before with heap.tables := (before.heap.tables.insert t).2 }
  let request : Request := .rawSet ref (.string "k") (.boolean false)
  let session : HostProgram := .ask request fun _ => .finish []
  have shields : m.Shields ref t := ⟨t, Arena.get_insert_self .., rfl, rfl, rfl⟩
  have admits : m.Admits (.string "k") (.boolean false) := ⟨rfl, rfl⟩
  have refused : serve (Vm.call 1) request m = .error (.failed (.fault .readOnly)) m :=
    shields.refuses.askRawSet admits
  have answered : Course.answer (Vm.call 1) request m = .ok (.error (.fault .readOnly)) m := by
    unfold Course.answer Run.mapError Run.attempt
    rw [refused]
  have ended : ((Plan.program none 0 session).run (Vm.call 1) m).last = m := by
    change (Course.run _ (.asks request m _)).last = m
    unfold Course.run
    rw [answered]
    rfl
  have trace : session.trace 1 m
      = [⟨.asks request, m⟩, ⟨.answered request (.error (.fault .readOnly)), m⟩] := by
    change Course.trace _ _ _ (.asks request m _) = _
    unfold Course.trace Request.trace
    rw [answered]
    rfl
  have live : m.heap.isLive (.table ref) = true :=
    Arena.contains_iff.mpr ⟨t, Arena.get_insert_self ..⟩
  have only {value : Value} {deed : Deed}
      (grants : Point.Grants ⟨.asks (.rawSet ref (.string "k") value), m⟩ deed)
      : deed = .write ref := by
    cases grants.of_asks
    rfl
  have spared : ∀ point ∈ session.trace 1 m, point.Spares ref := by
    rw [trace]
    intro point member
    rcases List.mem_pair.mp member with rfl | rfl
    · exact ⟨live, fun grants => Deed.noConfusion (only grants),
        fun grants => Deed.noConfusion (only grants)⟩
    · exact Machine.Shields.spares shields rfl
  have kept := (session.protected_table_kept 1 shields).2 m ended.symm spared live
  exact ⟨m, ref, t, .boolean false, m, ended.symm, rfl, shields, admits, kept⟩

end HookMachine
