import HookMachine.Proofs.Hook.Log
import HookMachine.Proofs.Soundness.Closed

/-!
Histories of a runtime whose redirects are left to hooks: hooks and their ends in any order,
between calls and collections and within them. What the registry says, where closures go and
what copies do is as the log of the history says, and a hook that is refused changes none of
it.
-/

namespace HookMachine

/-- The rules of those who pass in any values and leave redirects to hooks. -/
def Rules.hooking : Rules where
  careful := False
  redirects := False
  raises _ := True

/-- Hooking a closure ends without a hook. -/
def Hook.Refuses (target replacement : Value) (m after : Machine) : Prop :=
  install target replacement m = .ok none after
    ∨ ∃ halt, install target replacement m = .error halt after

/-- A request that adds to a log by itself what it does to hooks. -/
def Request.logged : Request → Bool
  | hook .. | unhook _ | collect => true
  | _ => false

/-- What happens to a runtime from a situation on, with a log of hooks and collections, the last
first.
-/
inductive Situation.History (start : Situation) : List HookEvent → Situation → Prop
  | start : History start [] start
  | worked {events more s t} (history : History start events s) (work : Rules.hooking.Work s t)
    (trace : s.machine.Trace more t.machine)
    : History start (more ++ events) t
  | hooked {events m stack mine ref c replacement copy after}
    (history : History start events ⟨m, stack, mine⟩)
    (found : m.heap.closures.get ref.handle = .ok c)
    (ran : Hook.install (.closure ref) replacement m = .ok (some copy) after)
    : History start (.installed ref c replacement copy :: events) ⟨after, stack, mine⟩
  | refused {events m stack mine target replacement after}
    (history : History start events ⟨m, stack, mine⟩)
    (refuses : Hook.Refuses target replacement m after)
    : History start events ⟨after, stack, mine⟩
  | unhooked {events m stack mine ref after} (history : History start events ⟨m, stack, mine⟩)
    (ran : Hook.restore (.closure ref) m = .ok true after)
    : History start (.restored ref :: events) ⟨after, stack, mine⟩
  /-- What is unhooked had no hook. -/
  | missed {events m stack mine target after} (history : History start events ⟨m, stack, mine⟩)
    (ran : Hook.restore target m = .ok false after)
    : History start events ⟨after, stack, mine⟩
  | collected {events m stack mine} (history : History start events ⟨m, stack, mine⟩)
    : History start
        (.collected (fun ref => m.collect.2.heap.isLive (.closure ref)) :: events)
        ⟨m.collect.2, stack, mine⟩
  /-- Another request is answered, and what it calls may hook closures. -/
  | answered {events more m stack mine request fuel answer after}
    (history : History start events ⟨m, stack, mine⟩) (other : request.logged = false)
    (permits : Rules.hooking.Permits m mine request)
    (ran : serve (Vm.call fuel) request m = .ok answer after) (trace : m.Trace more after)
    : History start (more ++ events) ⟨after, stack, request.owned answer mine⟩
  | failed {events more m stack mine request fuel halt after}
    (history : History start events ⟨m, stack, mine⟩) (other : request.logged = false)
    (permits : Rules.hooking.Permits m mine request)
    (ran : serve (Vm.call fuel) request m = .error halt after) (trace : m.Trace more after)
    : History start (more ++ events) ⟨after, stack, mine⟩

/-- The registry of hooks, redirects and copies are as a log says. -/
structure Machine.InStep (m : Machine) (events : List HookEvent) : Prop where
  /-- A closure goes to the replacement of its last hook, if it was not unhooked since. -/
  redirect {ref c}
    : m.heap.closures.get ref.handle = .ok c → c.redirect = (hookOf ref events).map Prod.fst
  redirected_iff {ref c}
    : m.heap.closures.get ref.handle = .ok c
      → (c.redirect.isSome = true ↔ m.hooks.isHooked (.closure ref) = true)
  isHooked_iff (f : Value)
    : m.hooks.isHooked f = true
      ↔ ∃ ref, f = .closure ref ∧ (hookOf ref events).isSome = true
  /-- Hooks put in play what is hooked, and the copies of the last hooks. -/
  owns_iff (f : Value)
    : m.hooks.owns f = true
      ↔ ∃ ref, f = .closure ref
          ∧ ((hookOf ref events).isSome = true
            ∨ ∃ target replacement, hookOf target events = some (replacement, ref))
  length
    : ∃ hooked : List ClosureRef, hooked.Nodup
        ∧ (∀ ref, ref ∈ hooked ↔ (hookOf ref events).isSome = true)
        ∧ m.hooks.functions.length = hooked.length
  /-- Unhooking succeeds, says whether there was a hook, and leaves neither hook nor redirect. -/
  restores (target : Value)
    : ∃ after, Hook.restore target m = .ok (m.hooks.isHooked target) after
        ∧ after.hooks.isHooked target = false
        ∧ ∀ ref c, target = .closure ref → after.heap.closures.get ref.handle = .ok c
          → c.redirect = none
  /-- The copy that a hook handed out exists until a collection removes it, is the same as what was
  hooked, and goes nowhere else unless it is hooked itself.
  -/
  copies {later earlier target original replacement copy}
    : events = later ++ .installed target original replacement copy :: earlier
      → (∀ event ∈ later, event.keeps copy)
      → ∃ c, m.heap.closures.get copy.handle = .ok c ∧ c.Alike original
          ∧ (m.hooks.isHooked (.closure copy) = false → c.redirect = none)
          ∧ ((∀ event ∈ later, event.keeps target)
            → ∃ t, m.heap.closures.get target.handle = .ok t ∧ c.Alike t)
  /-- A hook that is refused changes no hook and no closure, and keeps no value alive. -/
  refusals {target replacement after}
    : Hook.Refuses target replacement m after
      → after.hooks = m.hooks ∧ m.Quiet after
        ∧ after.heap.retained.size = m.heap.retained.size ∧ after.guards = m.guards

variable {m after : Machine} {own : List Guard} {events : List HookEvent} {start s t : Situation}

-----------------------------------------------------------------------------------------
-- Hooks that are refused
-----------------------------------------------------------------------------------------

/-- What is retained for a hook that is abandoned is given back. -/
theorem Machine.retained_abandoned (m : Machine) (ref : ClosureRef) (c : Closure)
    : (m.abandoned ref c).heap.retained.size = m.heap.retained.size
      ∧ (m.abandoned ref c).guards = m.guards := by
  let copied := m.copied c
  let target := copied.2.hold (.closure ref)
  let former := target.2.hold (.closure copied.1)
  have none : Ledger m.heap.retained [] := ⟨.nil, by simp⟩
  have held : Ledger former.2.heap.retained [former.1, target.1] := (none.insert _).insert _
  obtain ⟨size, out⟩ := held.letGoAll
  have grown : former.2.heap.retained.size = m.heap.retained.size + 2 :=
    (Arena.size_insert ..).trans (congrArg (· + 1) (Arena.size_insert ..))
  constructor
  · exact size.trans (by rw [grown]; rfl)
  · exact out

/-- A hook that is refused changes neither the registry nor a closure, and keeps nothing alive. -/
theorem Hook.Refuses.unchanged {target replacement : Value} (minted : m.heap.Minted)
    (refuses : Refuses target replacement m after)
    : after.hooks = m.hooks ∧ m.Quiet after
      ∧ after.heap.retained.size = m.heap.retained.size ∧ after.guards = m.guards := by
  have same (same : m = after)
      : after.hooks = m.hooks ∧ m.Quiet after
        ∧ after.heap.retained.size = m.heap.retained.size ∧ after.guards = m.guards := by
    subst same
    exact ⟨rfl, .of_eq rfl rfl, rfl, rfl⟩
  rcases install_cases minted target replacement with
    ⟨ref, c, _, _, _, ran⟩ | ⟨ref, c, _, _, _, ran⟩ | ⟨_, _, _, _, ran⟩ | ⟨_, ran⟩ | ran <;>
    rw [Refuses, ran] at refuses <;>
    obtain ended | ⟨_, ended⟩ := refuses <;>
    cases ended
  · refine ⟨?_, m.quiet_abandoned ref c, m.retained_abandoned ref c⟩
    simp only [Machine.abandoned, Machine.hooks_letGoAll]
    rfl
  · exact same rfl
  · exact same rfl
  · exact same rfl

-----------------------------------------------------------------------------------------
-- Histories are all that happens
-----------------------------------------------------------------------------------------

/-- Nothing that is passed in needs to be valid. -/
theorem Rules.hooking_valid (m : Machine) (value : Value) : Rules.hooking.Valid m value :=
  fun careful => careful.elim

theorem Rules.hooking_permits {request : Request} {mine : List Guard}
    (logged : request.logged = true)
    : Rules.hooking.Permits m mine request := by
  refine ⟨fun value _ => hooking_valid m value, ?_, ?_, ?_⟩ <;>
    cases request <;> simp_all [Request.logged, Request.prototypes, Request.frees?]

namespace Situation

/-- What happens in a history are steps by the rules, by induction over the history. -/
theorem History.steps (history : History start events s) : Rules.hooking.Steps start s := by
  induction history with
  | start => exact .refl
  | worked _ work _ ih => exact ih.tail (.worked work)
  | @hooked _ m _ mine ref _ replacement _ _ _ _ ran ih =>
      have permits : Rules.hooking.Permits m mine (.hook (.closure ref) replacement) :=
        Rules.hooking_permits rfl
      exact ih.tail (@Rules.Step.answered _ _ _ _ _ 0 _ _ permits ran)
  | @refused _ m _ mine target replacement _ _ refuses ih =>
      have permits : Rules.hooking.Permits m mine (.hook target replacement) :=
        Rules.hooking_permits rfl
      obtain ran | ⟨_, ran⟩ := refuses
      · exact ih.tail (@Rules.Step.answered _ _ _ _ _ 0 _ _ permits ran)
      · exact ih.tail (@Rules.Step.failed _ _ _ _ _ 0 _ _ permits ran)
  | @unhooked _ m _ mine ref _ _ ran ih =>
      have permits : Rules.hooking.Permits m mine (.unhook (.closure ref)) :=
        Rules.hooking_permits rfl
      exact ih.tail (@Rules.Step.answered _ _ _ _ _ 0 _ _ permits ran)
  | @missed _ m _ mine target _ _ ran ih =>
      have permits : Rules.hooking.Permits m mine (.unhook target) := Rules.hooking_permits rfl
      exact ih.tail (@Rules.Step.answered _ _ _ _ _ 0 _ _ permits ran)
  | @collected _ m _ mine _ ih =>
      have permits : Rules.hooking.Permits m mine .collect := Rules.hooking_permits rfl
      have ran : serve (Vm.call 0) .collect m = .ok m.collect.1 m.collect.2 := rfl
      exact ih.tail (.answered permits ran)
  | answered _ _ permits ran _ ih => exact ih.tail (.answered permits ran)
  | failed _ _ permits ran _ ih => exact ih.tail (.failed permits ran)

/-- A hook that the history of a sound machine gets to is logged. -/
theorem History.hook {stack : List Layer} {mine : List Guard} {target replacement : Value}
    {answer : Option ClosureRef} (history : History start events ⟨m, stack, mine⟩)
    (minted : m.heap.Minted) (ran : Hook.install target replacement m = .ok answer after)
    : ∃ events, History start events ⟨after, stack, mine⟩ := by
  cases answer with
  | none => exact ⟨_, history.refused (.inl ran)⟩
  | some copy =>
      rcases Hook.install_cases minted target replacement with
        ⟨ref, c, rfl, found, _, _⟩ | ⟨_, _, _, _, _, failed⟩ | ⟨_, _, _, _, failed⟩
          | ⟨_, failed⟩ | none
      · exact ⟨_, history.hooked found ran⟩
      · cases ran.symm.trans failed
      · cases ran.symm.trans failed
      · cases ran.symm.trans failed
      · cases ran.symm.trans none

/-- What unhooking does is logged. -/
theorem History.unhook {stack : List Layer} {mine : List Guard} {target : Value} {answer : Bool}
    (history : History start events ⟨m, stack, mine⟩)
    (ran : Hook.restore target m = .ok answer after)
    : ∃ events, History start events ⟨after, stack, mine⟩ := by
  cases answer with
  | false => exact ⟨_, history.missed ran⟩
  | true =>
      cases target with
      | closure ref => exact ⟨_, history.unhooked ran⟩
      | _ => cases ran

/-- A history goes on with every step. -/
theorem History.step (history : History start events s)
    (sound : Rules.hooking.SoundSituation s) (step : Rules.hooking.Step s t)
    : ∃ events, History start events t := by
  cases step with
  | worked work =>
      obtain ⟨_, trace⟩ := sound.traced work id
      exact ⟨_, history.worked work trace⟩
  | @answered m stack mine request fuel answer after permits ran =>
      by_cases logged : request.logged = true
      · cases request with
        | hook target replacement => exact history.hook sound.sound.minted ran
        | unhook target => exact history.unhook ran
        | collect =>
            obtain ⟨-, rfl⟩ := EStateM.Result.ok.inj ran
            exact ⟨_, history.collected⟩
        | _ => cases logged
      · have collects : request ≠ .collect := by
          rintro rfl
          exact logged rfl
        obtain ⟨_, trace⟩ := ((sound.serve fuel collects permits).of_ok ran).1.trace id
        exact ⟨_, history.answered (Bool.eq_false_iff.mpr logged) permits ran trace⟩
  | @failed m stack mine request fuel halt after permits ran =>
      by_cases logged : request.logged = true
      · cases request with
        | hook target replacement => exact ⟨_, history.refused (.inr ⟨halt, ran⟩)⟩
        | unhook target =>
            obtain ⟨_, restored⟩ := Hook.restore_succeeds sound.sound target
            cases restored.symm.trans ran
        | collect => cases ran
        | _ => cases logged
      · have collects : request ≠ .collect := by
          rintro rfl
          exact logged rfl
        obtain ⟨_, trace⟩ := ((sound.serve fuel collects permits).of_error ran).trace id
        exact ⟨_, history.failed (Bool.eq_false_iff.mpr logged) permits ran trace⟩

/-- Whatever happens is a history, by induction over the steps. -/
theorem exists_history (sound : Rules.hooking.SoundSituation start)
    (steps : Rules.hooking.Steps start s)
    : ∃ events, History start events s := by
  induction steps with
  | refl => exact ⟨[], .start⟩
  | tail steps step ih =>
      obtain ⟨_, history⟩ := ih
      exact history.step (sound_of_steps sound steps) step

end Situation

-----------------------------------------------------------------------------------------
-- Machines agree with their histories
-----------------------------------------------------------------------------------------

namespace Machine

theorem hooks_collect (m : Machine) : m.collect.2.hooks = m.hooks := by
  unfold collect
  split <;> rfl

/-- The closures that a collection keeps are as they were. -/
theorem get_of_get_collect {rules : Rules} (sound : rules.Sound own m) {ref : ClosureRef}
    {c : Closure} (found : m.collect.2.heap.closures.get ref.handle = .ok c)
    : m.heap.closures.get ref.handle = .ok c := by
  unfold collect at found
  split at found
  · exact found
  · exact ((Heap.get_closures_collect sound.unmarked).mp found).1

/-- A collection leaves the agreement: it keeps what is hooked. -/
theorem Agrees.collected {rules : Rules} (agrees : m.Agrees events) (sound : rules.Sound own m)
    : m.collect.2.Agrees
        (.collected (fun ref => m.collect.2.heap.isLive (.closure ref)) :: events) where
  entries ref := m.hooks_collect ▸ agrees.entries ref
  redirects found := agrees.redirects (get_of_get_collect sound found)
  live {ref hook} said := by
    have hooked : (m.hooks.function? ref).isSome = true := by
      rw [agrees.function?_isSome]
      exact Option.isSome_iff_exists.mpr ⟨hook, said⟩
    obtain ⟨_, entry⟩ := Option.isSome_iff_exists.mp hooked
    rw [← m.hooks_collect] at entry
    obtain ⟨_, live⟩ := sound.collect.targets _ (HookRegistry.mem_of_function? entry)
    exact Arena.contains_iff.mp live
  remembers := by
    apply agrees.remembers.extend
    · intro ref c kept held
      obtain ⟨found, there⟩ := Arena.contains_iff.mp kept
      have same := held.symm.trans (get_of_get_collect sound there)
      exact ⟨found, there, Except.ok.inj same ▸ .refl _⟩
    · rintro target original replacement copy ref ⟨⟩

end Machine

/-- Machines agree with the logs of their histories, by induction over the history. -/
theorem Situation.History.agrees (sound : Rules.hooking.SoundSituation start)
    (agrees : start.machine.Agrees []) (history : History start events s)
    : s.machine.Agrees events := by
  induction history with
  | start => exact agrees
  | worked _ _ trace ih => exact ih.trace trace
  | hooked history found ran ih =>
      have sound := sound_of_steps sound history.steps
      exact ih.installed sound.sound.minted found ran
  | refused history refuses ih =>
      have sound := sound_of_steps sound history.steps
      exact ih.quiet (refuses.unchanged sound.sound.minted).2.1
  | unhooked _ ran ih => exact ih.restored ran
  | missed _ ran ih => exact ih.eq_of_restore ran ▸ ih
  | collected history ih => exact ih.collected (sound_of_steps sound history.steps).sound
  | answered _ _ _ _ trace ih => exact ih.trace trace
  | failed _ _ _ _ trace ih => exact ih.trace trace

-----------------------------------------------------------------------------------------
-- What agreement says of a machine
-----------------------------------------------------------------------------------------

/-- Scripts find equal to a closure what is that closure. -/
theorem Value.beq_closure {value : Value} {ref : ClosureRef}
    : (value == .closure ref) = true ↔ value = .closure ref := by
  cases value with
  | closure other =>
      change (other == ref) = true ↔ _
      rw [beq_iff_eq, Value.closure.injEq]
  | _ => exact ⟨fun equal => (by cases equal), fun equal => (by cases equal)⟩

/-- Where no closure has two entries, each entry is the one that its closure is looked up to. -/
theorem HookRegistry.function?_of_mem {registry : HookRegistry} {ref : ClosureRef}
    {hook : FunctionHook} (single : (registry.functions.map Prod.fst).Nodup)
    (member : (ref, hook) ∈ registry.functions)
    : registry.function? ref = some hook := by
  obtain ⟨before, rest, split⟩ := List.append_of_mem member
  apply List.lookup_eq_some_iff.mpr
  refine ⟨before, rest, split, fun entry listed => bne_iff_ne.mpr fun same => ?_⟩
  rw [split, List.map_append, List.nodup_append] at single
  exact single.2.2 entry.1 (List.mem_map_of_mem listed) ref (by simp) same.symm

namespace Machine.Agrees

theorem isHooked_iff (agrees : m.Agrees events) (f : Value)
    : m.hooks.isHooked f = true
      ↔ ∃ ref, f = .closure ref ∧ (hookOf ref events).isSome = true := by
  cases f with
  | closure ref =>
      rw [HookRegistry.isHooked, agrees.function?_isSome]
      constructor
      · intro hooked
        exact ⟨ref, rfl, hooked⟩
      · rintro ⟨_, ⟨⟩, hooked⟩
        exact hooked
  | _ => simp [HookRegistry.isHooked]

/-- The log says of a closure that is not hooked that it is not. -/
theorem hookOf_eq_none (agrees : m.Agrees events) {ref : ClosureRef}
    (unhooked : m.hooks.isHooked (.closure ref) = false)
    : hookOf ref events = none := by
  rw [HookRegistry.isHooked, agrees.function?_isSome] at unhooked
  exact Option.isNone_iff_eq_none.mp (Option.isSome_eq_false_iff.mp unhooked)

/-- The copies that entries keep are those that the log knows of closures that are hooked. -/
theorem former_iff (agrees : m.Agrees events)
    (single : (m.hooks.functions.map Prod.fst).Nodup) (copy : ClosureRef)
    : (m.hooks.functions.any fun entry => entry.2.former.value == .closure copy) = true
      ↔ ∃ target replacement, hookOf target events = some (replacement, copy) := by
  rw [List.any_eq_true]
  constructor
  · rintro ⟨⟨target, hook⟩, member, former⟩
    have entry := HookRegistry.function?_of_mem single member
    have said := agrees.entries target
    rw [entry] at said
    obtain ⟨⟨replacement, other⟩, known, same⟩ := Option.map_eq_some_iff.mp said.symm
    have former : hook.former.value = .closure copy := Value.beq_closure.mp former
    obtain ⟨-, same⟩ := Prod.mk.inj same
    obtain rfl : other = copy := Value.closure.inj (same.trans former)
    exact ⟨target, replacement, known⟩
  · rintro ⟨target, replacement, known⟩
    have said := agrees.entries target
    rw [known] at said
    obtain ⟨hook, entry, same⟩ := Option.map_eq_some_iff.mp said
    refine ⟨(target, hook), HookRegistry.mem_of_function? entry, ?_⟩
    exact Value.beq_closure.mpr (Prod.mk.inj same).2

theorem owns_iff (agrees : m.Agrees events)
    (single : (m.hooks.functions.map Prod.fst).Nodup) (f : Value)
    : m.hooks.owns f = true
      ↔ ∃ ref, f = .closure ref
          ∧ ((hookOf ref events).isSome = true
            ∨ ∃ target replacement, hookOf target events = some (replacement, ref)) := by
  cases f with
  | closure ref =>
      rw [HookRegistry.owns, Bool.or_eq_true, agrees.function?_isSome, agrees.former_iff single]
      constructor
      · intro owned
        exact ⟨ref, rfl, owned⟩
      · rintro ⟨_, ⟨⟩, owned⟩
        exact owned
  | _ => simp [HookRegistry.owns]

/-- A closure has an entry if the log says that it is hooked. -/
theorem mem_functions_iff (agrees : m.Agrees events)
    (single : (m.hooks.functions.map Prod.fst).Nodup) (ref : ClosureRef)
    : ref ∈ m.hooks.functions.map Prod.fst ↔ (hookOf ref events).isSome = true := by
  rw [← agrees.function?_isSome, Option.isSome_iff_exists, List.mem_map]
  constructor
  · rintro ⟨⟨_, hook⟩, member, rfl⟩
    exact ⟨hook, HookRegistry.function?_of_mem single member⟩
  · rintro ⟨hook, entry⟩
    exact ⟨(ref, hook), HookRegistry.mem_of_function? entry, rfl⟩

/-- Unhooking a value leaves it without a hook, and if it is a closure without a redirect. -/
theorem restores (agrees : m.Agrees events) (target : Value)
    : ∃ after, Hook.restore target m = .ok (m.hooks.isHooked target) after
        ∧ after.hooks.isHooked target = false
        ∧ ∀ ref c, target = .closure ref → after.heap.closures.get ref.handle = .ok c
          → c.redirect = none := by
  cases target with
  | closure ref =>
      rw [HookRegistry.isHooked]
      cases entry : m.hooks.function? ref with
      | none =>
          refine ⟨m, Hook.restore_of_none entry, ?_, ?_⟩
          · rw [HookRegistry.isHooked, entry]
            rfl
          · rintro _ c ⟨⟩ found
            rw [agrees.redirects found, agrees.hookOf_eq_none (by rw [HookRegistry.isHooked, entry]; rfl)]
            rfl
      | some hook =>
          obtain ⟨c, found⟩ := agrees.exists_of_function? entry
          refine ⟨m.unhooked ref hook, Hook.restore_of_get entry found, ?_, ?_⟩
          · rw [HookRegistry.isHooked, Machine.hooks_unhooked, HookRegistry.function?_eraseFunction,
              if_pos rfl]
            rfl
          · rintro _ c ⟨⟩ found
            obtain ⟨before, _, rfl⟩ := Machine.get_unhooked.mp found
            exact if_pos rfl
  | _ => exact ⟨m, rfl, rfl, by simp⟩

/-- The copy that a hook handed out and the closure that it was made of stay alike. -/
theorem copies (agrees : m.Agrees events) {later earlier : List HookEvent} {target copy : ClosureRef}
    {original : Closure} {replacement : Value}
    (split : events = later ++ .installed target original replacement copy :: earlier)
    (kept : ∀ event ∈ later, event.keeps copy)
    : ∃ c, m.heap.closures.get copy.handle = .ok c ∧ c.Alike original
        ∧ (m.hooks.isHooked (.closure copy) = false → c.redirect = none)
        ∧ ((∀ event ∈ later, event.keeps target)
          → ∃ t, m.heap.closures.get target.handle = .ok t ∧ c.Alike t) := by
  obtain ⟨c, found, alike⟩ := agrees.remembers _ _ _ _ _ _ copy split (.inr rfl) kept
  refine ⟨c, found, alike, fun unhooked => ?_, fun kept => ?_⟩
  · rw [agrees.redirects found, agrees.hookOf_eq_none unhooked]
    rfl
  · obtain ⟨t, there, same⟩ := agrees.remembers _ _ _ _ _ _ target split (.inl rfl) kept
    exact ⟨t, there, alike.trans same.symm⟩

/-- A machine that agrees with a log is as the log says. -/
theorem inStep {rules : Rules} (agrees : m.Agrees events) (sound : rules.Sound own m)
    : m.InStep events where
  redirect := agrees.redirects
  redirected_iff {ref c} found := by
    rw [agrees.redirects found, Option.isSome_map, HookRegistry.isHooked, agrees.function?_isSome]
  isHooked_iff := agrees.isHooked_iff
  owns_iff := agrees.owns_iff sound.single
  length := by
    refine ⟨m.hooks.functions.map Prod.fst, sound.single, agrees.mem_functions_iff sound.single, ?_⟩
    exact (List.length_map ..).symm
  restores := agrees.restores
  copies := agrees.copies
  refusals refuses := refuses.unchanged sound.minted

end Machine.Agrees

-----------------------------------------------------------------------------------------
-- Whatever happens is logged, and in step with its log
-----------------------------------------------------------------------------------------

namespace Situation

/-- What a runtime got into by any rules is sound by those that leave redirects to hooks, if its
natives keep them: nothing that is passed in has to be valid.
-/
theorem sound_hooking (sound : Rules.lax.SoundSituation s)
    (natives : ∀ handle n, s.machine.heap.natives.get handle = .ok n → Rules.hooking.Conforms n)
    : Rules.hooking.SoundSituation s := by
  have valid (value : Value) : Rules.hooking.Valid s.machine value := Rules.hooking_valid _ value
  have machine : Rules.hooking.Sound s.mine s.machine :=
    sound.sound.change (fun _ value _ => valid value) (fun _ value _ => valid value) natives
  refine ⟨machine, fun layer member => ?_, sound.entered⟩
  exact machine.validFrame (sound.stack layer member).runs (fun value _ => valid value)
    (fun value _ => valid value) fun _ _ => valid _

/-- Whatever happened, a closure can be made and hooked with a native. -/
theorem History.exists_installed (history : History start events ⟨m, [], []⟩)
    (sound : Rules.hooking.SoundSituation start) {native : NativeRef}
    (owned : m.heap.owns (.native native) = true)
    : ∃ ref c copy events s,
        History start (.installed ref c (.native native) copy :: events) s := by
  let p := (m.prototypes.insert {}).1
  let assembled : Machine := { m with prototypes := (m.prototypes.insert {}).2 }
  let c : Closure := { prototype := p, upvalues := #[], environment := m.globals }
  let made : Machine := { assembled with heap.closures := (m.heap.closures.insert c).2 }
  have permits {m : Machine} {request : Request} (frees : request.frees? = none)
      (redirects : ∀ ref target, request ≠ .redirect ref target)
      (prototypes : ∀ ref ∈ request.prototypes, Rules.hooking.ValidPrototype m ref)
      : Rules.hooking.Permits m [] request :=
    ⟨fun value _ => Rules.hooking_valid m value, prototypes,
      fun ref target same => absurd same (redirects ref target), by simp [frees]⟩
  have first : Rules.hooking.Step ⟨m, [], []⟩ ⟨assembled, [], []⟩ := by
    have ran : serve (Vm.call 0) (.assemble {}) m = .ok p assembled := rfl
    exact .answered (permits rfl (by simp) (by simp [Request.prototypes])) ran
  have second : Rules.hooking.Step ⟨assembled, [], []⟩ ⟨made, [], []⟩ := by
    have valid : Rules.hooking.ValidPrototype assembled p :=
      ⟨by simp [assembled, p, PrototypeStore.insert], fun value _ => Rules.hooking_valid _ value⟩
    have captures : (assembled.prototypes.get p).upvalues = 0 := by
      simp [assembled, p, PrototypeStore.insert, PrototypeStore.get]
    have ran : serve (Vm.call 0) (.instantiate p none) assembled = _ :=
      Run.lift_ok (Vm.instantiate_of_plain captures none)
    exact .answered (permits rfl (by simp) (by simpa [Request.prototypes] using valid)) ran
  have before := sound_of_steps sound history.steps
  obtain ⟨_, assembling⟩ := history.step before first
  obtain ⟨earlier, making⟩ := assembling.step (before.step first) second
  have later := (before.step first).step second
  have found : made.heap.closures.get (m.heap.closures.insert c).1 = .ok c :=
    Arena.get_insert_self m.heap.closures c
  have ran
      : Hook.install (.closure ⟨(m.heap.closures.insert c).1⟩) (.native native) made = .ok _ _ :=
    Hook.install_of_get later.sound.minted found rfl rfl owned
  exact ⟨_, _, _, _, _, making.hooked found ran⟩

/-- From a runtime without hooks and redirects on, as long as redirects are left to hooks: whatever
happens is a history, and the machine is in step with the log of every history.
-/
theorem inStep_of_history (reached : start.Reached)
    (natives : ∀ handle n, start.machine.heap.natives.get handle = .ok n
      → Rules.hooking.Conforms n)
    (unhooked : start.machine.hooks.functions = [])
    (direct : ∀ handle c, start.machine.heap.closures.get handle = .ok c → c.redirect = none)
    : (∀ s, Rules.hooking.Steps start s → ∃ events, History start events s)
      ∧ ∀ events s, History start events s → s.machine.InStep events := by
  have sound := sound_hooking reached.sound natives
  refine ⟨fun s steps => exists_history sound steps, fun events s history => ?_⟩
  have agrees := history.agrees sound (.start unhooked direct)
  exact agrees.inStep (sound_of_steps sound history.steps).sound

/-- A new runtime makes a closure and hooks it with one of its script functions. -/
theorem inStep_of_history_hooked
    : ∃ ref c replacement copy events s,
        History (fresh 1 {}) (.installed ref c replacement copy :: events) s
        ∧ s.machine.InStep (.installed ref c replacement copy :: events) := by
  have sound := sound_fresh Rules.hooking 1 {}
  have owned : (Machine.create 1 {}).heap.owns (.native ⟨⟨1, 0, 0⟩⟩) = true := by
    decide +kernel
  obtain ⟨ref, c, copy, events, s, hooked⟩ := History.exists_installed .start sound owned
  have unhooked : (fresh 1 {}).machine.hooks.functions.isEmpty = true := by
    decide +kernel
  have empty : (fresh 1 {}).machine.heap.closures.slots.size = 0 := by
    decide +kernel
  have absent (handle : Handle) (c : Closure)
      : (fresh 1 {}).machine.heap.closures.get handle ≠ .ok c := by
    intro found
    have bound := (Array.getElem?_eq_some_iff.mp (Arena.get_eq_ok.mp found).2).1
    omega
  have natives (handle : Handle) (n : Native)
      (found : (fresh 1 {}).machine.heap.natives.get handle = .ok n) : Rules.hooking.Conforms n :=
    (sound.sound.natives found).conforms
  have reached : (fresh 1 {}).Reached := ⟨1, {}, .refl⟩
  have inStep := inStep_of_history reached natives (List.isEmpty_iff.mp unhooked)
    (fun handle c found => absurd found (absent handle c))
  exact ⟨ref, c, _, copy, events, s, hooked, inStep.2 _ s hooked⟩

end Situation
end HookMachine
