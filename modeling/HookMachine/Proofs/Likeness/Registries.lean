import HookMachine.Proofs.Likeness.Objects

/-!
Registries that are alike: like keys find like entries, and what is recorded or given up under
like keys leaves the registries alike.
-/

namespace List.Forall₂

variable {κ ν ν' : Type} {related : κ × ν → κ × ν' → Prop} {xs : List (κ × ν)} {ys : List (κ × ν')}

/-- Keys that entries cannot be told apart by find entries that are related. -/
theorem lookup [BEq κ] (alike : xs.Forall₂ related ys) {k l : κ}
    (same : ∀ x y, related x y → (k == x.1) = (l == y.1))
    : Option.Rel (fun v w => ∃ x y, related (x, v) (y, w)) (xs.lookup k) (ys.lookup l) := by
  induction alike with
  | nil => exact .none
  | @cons x y _ _ head _ ih =>
      rw [List.lookup_cons, List.lookup_cons, same x y head]
      cases l == y.1 with
      | true => exact .some ⟨x.1, y.1, head⟩
      | false => exact ih

end List.Forall₂

namespace HookMachine.Tie

variable {t : Tie}

-----------------------------------------------------------------------------------------
-- Hooks
-----------------------------------------------------------------------------------------

theorem FunctionHooks.guards {h k : FunctionHook} (alike : t.FunctionHooks h k)
    : h.guards.Forall₂ t.Guards k.guards :=
  .cons alike.target (.cons alike.former (.cons alike.replacement .nil))

theorem MetamethodHooks.guards {h k : MetamethodHook} (alike : t.MetamethodHooks h k)
    : h.guards.Forall₂ t.Guards k.guards :=
  .cons alike.previous (.cons alike.former (.cons alike.replacement .nil))

/-- Keys of like entries are equal to like closures alike. -/
theorem HookedClosures.key_eq {e f : ClosureRef × FunctionHook} (entry : t.HookedClosures e f)
    {c d : ClosureRef} (tied : t.ClosureRefs c d)
    : c = e.1 ↔ d = f.1 := by
  simpa using Tie.single tied entry.key

/-- Keys of like entries are equal to like slots alike. -/
theorem HookedSlots.key_eq {e f : MetamethodSlot × MetamethodHook} (entry : t.HookedSlots e f)
    {a b : TableRef} (tied : t.TableRefs a b) (name : String)
    : (a, name) = e.1 ↔ (b, name) = f.1 := by
  have metatables : e.1.1 = a ↔ f.1.1 = b := by simpa using t.apart entry.metatable tied
  rw [Prod.ext_iff, Prod.ext_iff, entry.name, eq_comm, metatables, eq_comm]

namespace Hooks

variable {r s : HookRegistry} (alike : t.Hooks r s)

include alike

section

variable {c d : ClosureRef} (tied : t.ClosureRefs c d)

include tied

theorem function? : Option.Rel t.FunctionHooks (r.function? c) (s.function? d) := by
  have found := alike.functions.lookup (k := c) (l := d) fun x y entry => by
    rw [Bool.eq_iff_iff, beq_iff_eq, beq_iff_eq]
    exact entry.key_eq tied
  exact found.imp fun ⟨_, _, entry⟩ => entry.hook

theorem eraseFunction : t.Hooks (r.eraseFunction c) (s.eraseFunction d) := by
  refine ⟨alike.functions.filter fun x y entry => ?_, alike.metamethods⟩
  rw [decide_eq_decide, ne_eq, ne_eq, eq_comm, entry.key_eq tied, eq_comm]

theorem insertFunction {h k : FunctionHook} (hook : t.FunctionHooks h k)
    : t.Hooks (r.insertFunction c h) (s.insertFunction d k) := by
  have others := alike.eraseFunction tied
  exact ⟨others.functions.append (.cons ⟨tied, hook⟩ .nil), others.metamethods⟩

end

section

variable {a b : TableRef} (tied : t.TableRefs a b) (name : String)

include tied

theorem metamethod?
    : Option.Rel t.MetamethodHooks (r.metamethod? (a, name)) (s.metamethod? (b, name)) := by
  have found := alike.metamethods.lookup (k := (a, name)) (l := (b, name)) fun x y entry => by
    rw [Bool.eq_iff_iff, beq_iff_eq, beq_iff_eq]
    exact entry.key_eq tied name
  exact found.imp fun ⟨_, _, entry⟩ => entry.hook

theorem eraseMetamethod : t.Hooks (r.eraseMetamethod (a, name)) (s.eraseMetamethod (b, name)) := by
  refine ⟨alike.functions, alike.metamethods.filter fun x y entry => ?_⟩
  rw [decide_eq_decide, ne_eq, ne_eq, eq_comm, entry.key_eq tied name, eq_comm]

theorem insertMetamethod {h k : MetamethodHook} (hook : t.MetamethodHooks h k)
    : t.Hooks (r.insertMetamethod (a, name) h) (s.insertMetamethod (b, name) k) := by
  have others := alike.eraseMetamethod tied name
  exact ⟨others.functions, others.metamethods.append (.cons ⟨t.linked tied, rfl, hook⟩ .nil)⟩

end

variable {v w : Value} (f : t.Values v w)

include f

theorem isHooked : r.isHooked v = s.isHooked w := by
  cases f with
  | closure tied => exact (alike.function? tied).isSome
  | nil | boolean | number | string | table | native => rfl

theorem owns : r.owns v = s.owns w := by
  cases f with
  | closure tied =>
      have copies := alike.functions.any_eq fun x y entry =>
        Values.beq entry.hook.former.value (.closure tied)
      exact congrArg₂ (· || ·) (alike.function? tied).isSome copies
  | nil | boolean | number | string | table | native => rfl

end Hooks

-----------------------------------------------------------------------------------------
-- Environments
-----------------------------------------------------------------------------------------

namespace Environments

variable {c d : EnvironmentCache} (alike : t.Environments c d) {o o' : EnvironmentOwner}
  (owner : t.Owners o o')

include alike

theorem size : c.size = d.size :=
  congrArg₂ (· + ·) alike.scripts.length_eq alike.modules.length_eq

include owner

theorem find? : Option.Rel t.Guards (c.find? o) (d.find? o') := by
  cases owner with
  | runtime => exact alike.shared
  | script id =>
      exact (alike.scripts.find? fun _ _ entry => Recalled.beq entry.id id).map (·.guard)
  | module id =>
      exact (alike.modules.find? fun _ _ entry => Recalled.beq entry.id id).map (·.guard)

theorem insert {g h : Guard} (guard : t.Guards g h)
    : t.Environments (c.insert g o) (d.insert h o') := by
  cases owner with
  | runtime => exact { alike with shared := .some guard }
  | script id =>
      exact { alike with
        scripts := alike.scripts.append (.cons ⟨Values.recalled id, guard⟩ .nil) }
  | module id =>
      exact { alike with
        modules := alike.modules.append (.cons ⟨Values.recalled id, guard⟩ .nil) }

end Environments

-----------------------------------------------------------------------------------------
-- Connections
-----------------------------------------------------------------------------------------

namespace Connections

variable {r s : ConnectionRegistry} (alike : t.Connections r s)

include alike

theorem size : r.size = s.size := by
  simpa using alike.length_eq

theorem getElem? (index : Nat) : Option.Rel t.SingleConnections r[index]? s[index]? := by
  simpa using List.Forall₂.getElem? alike index

theorem push {c d : Connection} (made : t.SingleConnections c d)
    : t.Connections (r.push c) (s.push d) := by
  unfold Connections
  rw [Array.toList_push, Array.toList_push]
  exact List.Forall₂.append alike (.cons made .nil)

theorem callback? (index : Nat)
    : Option.Rel t.Values (ConnectionRegistry.callback? r index)
        (ConnectionRegistry.callback? s index) := by
  have found := alike.getElem? index
  unfold ConnectionRegistry.callback?
  generalize r[index]? = o at *
  generalize s[index]? = p at *
  cases found with
  | none => exact .none
  | @some c d single =>
      have callback := single.callback
      have enabled := single.enabled
      obtain ⟨_, held, on⟩ := c
      obtain ⟨_, other, _⟩ := d
      cases enabled
      cases callback with
      | none => exact .none
      | some guard =>
          cases on with
          | false => exact .none
          | true => exact .some guard.value

theorem isConnected (index : Nat)
    : ConnectionRegistry.isConnected r index = ConnectionRegistry.isConnected s index := by
  have found := alike.getElem? index
  unfold ConnectionRegistry.isConnected
  generalize r[index]? = o at *
  generalize s[index]? = p at *
  cases found with
  | none => rfl
  | some single => exact single.callback.isSome

theorem setEnabled (index : Nat) (on : Bool)
    : t.Connections (ConnectionRegistry.setEnabled r index on)
        (ConnectionRegistry.setEnabled s index on) := by
  unfold Connections ConnectionRegistry.setEnabled
  rw [Array.toList_modify, Array.toList_modify]
  refine List.Forall₂.modify alike (fun c d single => ?_) index
  rw [single.callback.isSome]
  split
  · exact { single with enabled := rfl }
  · exact single

theorem disconnect (index : Nat)
    : t.Connections (ConnectionRegistry.disconnect r index)
        (ConnectionRegistry.disconnect s index) := by
  unfold Connections ConnectionRegistry.disconnect
  rw [Array.toList_modify, Array.toList_modify]
  refine List.Forall₂.modify alike (fun c d single => ?_) index
  exact { single with callback := .none, enabled := rfl }

theorem ofSignal (signal : String)
    : ConnectionRegistry.ofSignal r signal = ConnectionRegistry.ofSignal s signal := by
  unfold ConnectionRegistry.ofSignal
  rw [alike.size]
  refine List.filter_congr fun index _ => ?_
  have found := alike.getElem? index
  generalize r[index]? = o at *
  generalize s[index]? = p at *
  cases found with
  | none => rfl
  | some single =>
      dsimp only
      rw [single.callback.isSome, single.signal]

theorem info? (index : Nat)
    : ConnectionRegistry.info? r index = ConnectionRegistry.info? s index := by
  have found := alike.getElem? index
  unfold ConnectionRegistry.info?
  generalize r[index]? = o at *
  generalize s[index]? = p at *
  cases found with
  | none => rfl
  | some single =>
      rw [Option.map_some, Option.map_some, single.signal, single.enabled,
        single.callback.isSome]

end Connections
end HookMachine.Tie
