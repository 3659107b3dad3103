import HookMachine.Proofs.Likeness.Twins

/-!
Entries from the host. At every point of every session as many of them count as active as have
begun and not ended, however they end, so that a collection is refused exactly within entries.
-/

namespace HookMachine

/-- How many entries from the host begin along points. -/
def entriesBegun (points : List Point) : Nat :=
  points.countP fun point => point.mark matches .entered

/-- How many entries from the host end along points, in whatever way. -/
def entriesEnded (points : List Point) : Nat :=
  points.countP fun point => point.mark matches .left

/-- A machine in which so many entries from the host are open: within entries a collection is refused
and changes nothing, and between them it is a full one.
-/
structure Machine.Tallies (m : Machine) (entries : Nat) : Prop where
  active : m.activeCalls = entries
  refuses : 0 < entries → m.collect = (none, m)
  collects : entries = 0
    → m.collect = (some (m.collectFrom [.table m.globals]).1, (m.collectFrom [.table m.globals]).2)

theorem Machine.tallies (m : Machine) : m.Tallies m.activeCalls :=
  ⟨rfl, collect_of_busy, collect_of_idle⟩

/-- Counts the entries that are open. -/
def Watch.entries : Watch Int where
  note
    | .entered, i => i + 1
    | .left, i => i - 1
    | _, i => i
  permits _ _ := True
  onward := Eq

namespace Watch

theorem entries_noted (i : Int) (points : List Point)
    : Watch.entries.noted i points = i + entriesBegun points - entriesEnded points := by
  induction points generalizing i with
  | nil => simp [noted, entriesBegun, entriesEnded]
  | cons point rest ih =>
      have step := ih (Watch.entries.note point.mark i)
      obtain ⟨mark, m⟩ := point
      unfold noted entriesBegun entriesEnded at *
      rw [List.foldl_cons, step]
      cases mark <;> simp [entries] <;> omega

theorem entries_allows (i : Int) (points : List Point) : Watch.entries.Allows i points := by
  induction points generalizing i with
  | nil => trivial
  | cons point rest ih => exact ⟨trivial, ih _⟩

end Watch

/-- A session is shown with as many active entries as are open. -/
theorem Likeness.entries_conducted
    : (twins Pace.same fun (i : Int) m => m.activeCalls = i).Conducted Watch.entries := by
  refine twins_conducted (twins_seamless fun same held => ?_).regular (fun _ held => held)
    (fun _ => rfl) Eq.trans ?_ (fun _ => id) ?_ ?_ ?_
  · rwa [same]
  · intro i mark still
    cases mark <;> first | rfl | simp [Mark.moves] at still
  · intro i m held
    simp only [Watch.entries, Machine.enter]
    omega
  · intro i j m after steps held onward still
    change i + 1 = j at onward
    simp only [Watch.entries, Machine.leave]
    omega
  · intro i m r o after invoke moves _ held ran
    refine ⟨?_, rfl⟩
    change (after.activeCalls : Int) = i
    obtain ⟨_, _, _, answered, -⟩ := answer_limited moves invoke m m.config.limits m.steps
    cases answered.symm.trans ran
    exact held

/-- At every point of a session as many entries are active as were at its start and have begun and
not ended since; when it ends, in whatever way, all that have begun have ended.
-/
theorem HostProgram.entries_tally (session : HostProgram) (fuel : Nat) (m : Machine)
    : (∀ before point rest, session.trace fuel m = before ++ point :: rest
        → ∃ entries, entries + entriesEnded (before ++ [point])
            = m.activeCalls + entriesBegun (before ++ [point])
          ∧ point.machine.Tallies entries)
      ∧ entriesEnded (session.trace fuel m) = entriesBegun (session.trace fuel m)
      ∧ ((Plan.program none 0 session).run (Vm.call fuel) m).last.Tallies m.activeCalls := by
  have start : (Likeness.twins Pace.same fun (i : Int) m => m.activeCalls = i).machines
      m.activeCalls m m :=
    ⟨m.config.limits, m.steps, rfl, ⟨rfl, rfl⟩, rfl⟩
  have watched := Likeness.session_watched Likeness.entries_conducted rfl fuel
    (Tie.identity_whole.programs_refl rfl session) start
  obtain ⟨shown, onward, follows⟩ := watched.kept (Watch.entries_allows _ _)
  have balanced := Watch.entries_noted m.activeCalls (session.trace fuel m)
  rw [← show (m.activeCalls : Int) = _ from onward] at balanced follows
  refine ⟨fun before point rest same => ?_, by omega, ?_⟩
  · rw [same] at shown
    obtain ⟨_, _, _, _, -, held⟩ := shown.point
    rw [Watch.entries_noted] at held
    exact ⟨point.machine.activeCalls, by omega, point.machine.tallies⟩
  · generalize (Plan.program none 0 session).run (Vm.call fuel) m = outcome at *
    have same : outcome.last.activeCalls = m.activeCalls := by
      cases follows with
      | escapes escapes => exact escapes.elim
      | alike outcomes =>
          cases outcomes with
          | ok alike | error _ alike =>
              obtain ⟨_, _, _, -, held⟩ := alike
              exact Int.ofNat_inj.mp held
    exact same ▸ outcome.last.tallies

end HookMachine
