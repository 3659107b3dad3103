import HookMachine.Proofs.Deeds.Courses

/-!
Runs by their points: from each point to the next the machine moves within what the point grants. What
single points preserve is preserved by every run, by induction over the points that it comes by.
-/

namespace HookMachine

variable {α β : Type} {m middle last : Machine}

-----------------------------------------------------------------------------------------
-- Points in a row
-----------------------------------------------------------------------------------------

/-- The machine of the first point that is listed, or else the last machine. -/
def reached : List Point → Machine → Machine
  | [], last => last
  | next :: _, _ => next.machine

/-- What a request grants that is made at a point. -/
def Point.Requests (point : Point) (deed : Deed) : Prop :=
  ∃ request, point.mark = .asks request ∧ request.Grants point.machine deed

/-- What is done at a point, if an entry begins there, is what was asked for at the point before. -/
def Point.Opens (before point : Point) (m : Machine) : Prop :=
  point.mark = .entered → Scope.Leads ⟨point.machine, before.Requests⟩ point.machine m

/-- The machine moves from a point to the first that is listed, from each of these to the next, and
from the last of them to `last`.
-/
inductive Linked : Point → List Point → Machine → Prop
  | nil {point last} (goes : point.Goes last) : Linked point [] last
  | cons {point next rest last} (moves : point.Moves next.machine)
    (opens : point.Opens next (reached rest last)) (linked : Linked next rest last)
    : Linked point (next :: rest) last

/-- The points of a run from `m` to `last`, whatever point it follows. -/
structure Stretch (m : Machine) (points : List Point) (last : Machine) : Prop where
  begins : m.Near (reached points last)
  linked : ∀ point : Point, point.Goes m → Linked point points last

/-- What is done at a point, if an entry begins there, was asked for at the last point of a log. -/
def Point.Opened (log : List Point) (point : Point) (m : Machine) : Prop :=
  point.mark = .entered → ∃ earlier before, log = earlier ++ [before]
    ∧ Scope.Leads ⟨point.machine, before.Requests⟩ point.machine m

theorem Point.opens_of_ne {before point : Point} (other : point.mark ≠ .entered) (m : Machine)
    : before.Opens point m :=
  fun entered => absurd entered other

theorem Point.opened_of_ne {log : List Point} {point : Point} (other : point.mark ≠ .entered)
    (m : Machine)
    : point.Opened log m :=
  fun entered => absurd entered other

theorem Point.Opens.opened {before point : Point} (opens : before.Opens point m)
    (log : List Point)
    : point.Opened (log ++ [before]) m :=
  fun entered => ⟨log, before, rfl, opens entered⟩

theorem Point.Opens.near {before point : Point} (opens : before.Opens point middle)
    (near : middle.Near m)
    : before.Opens point m :=
  fun entered => (opens entered).tail (.beside near.beside)

/-- A row of points goes on by any stretch from where it ends. -/
theorem Linked.append {point : Point} {points more : List Point}
    (linked : Linked point points middle) (rest : Stretch middle more last)
    : Linked point (points ++ more) last := by
  induction linked with
  | nil goes => exact rest.linked _ goes
  | @cons point next others middle moves opens linked ih =>
      refine .cons moves ?_ (ih rest)
      cases others with
      | nil => exact opens.near rest.begins
      | cons => exact opens

section

variable {P : List Point → Machine → Prop}
  (step : ∀ log (p : Point) m, P log p.machine → p.Moves m → p.Opened log m → P (log ++ [p]) m)

include step

/-- What single points carry on with holds at every point of a row, by induction over the points
before it. The log lists those that were come by.
-/
theorem Linked.holds_at (log : List Point) {point here : Point} {earlier later : List Point}
    (linked : Linked point (earlier ++ here :: later) last) (start : P log point.machine)
    (opened : point.Opened log (reached (earlier ++ here :: later) last))
    : P (log ++ point :: earlier) here.machine := by
  induction earlier generalizing log point with
  | nil =>
      cases linked with
      | cons moves _ _ => exact step log point _ start moves opened
  | cons next rest ih =>
      cases linked with
      | cons moves opens linked =>
          have goes := ih _ linked (step log point _ start moves opened) (opens.opened log)
          rwa [List.append_assoc] at goes

/-- What single points carry on with holds at the end of a row. -/
theorem Linked.holds_last (log : List Point) {points : List Point} {point : Point}
    (linked : Linked point points last) (start : P log point.machine)
    (opened : point.Opened log (reached points last))
    : P (log ++ point :: points) last := by
  induction linked generalizing log with
  | nil goes => exact step log _ _ start (.inl goes) opened
  | cons moves opens _ ih =>
      have goes := ih _ (step log _ _ start moves opened) (opens.opened log)
      rwa [List.append_assoc] at goes

end

namespace Stretch

theorem nil (m : Machine) : Stretch m [] m :=
  ⟨.refl m, fun _ => .nil⟩

theorem append {points more : List Point} (first : Stretch m points middle)
    (rest : Stretch middle more last)
    : Stretch m (points ++ more) last := by
  refine ⟨?_, fun point goes => (first.linked point goes).append rest⟩
  cases points with
  | nil => exact first.begins.trans rest.begins
  | cons => exact first.begins

/-- Any point but the beginning of an entry is a point of any run. -/
theorem cons {mark : Mark} {points : List Point} (linked : Linked ⟨mark, m⟩ points last)
    (other : mark ≠ .entered)
    : Stretch m (⟨mark, m⟩ :: points) last :=
  ⟨.refl m, fun _ goes => .cons (.inl goes) (Point.opens_of_ne other _) linked⟩

theorem of_near {points : List Point} (rest : Stretch middle points last) (near : m.Near middle)
    : Stretch m points last :=
  ⟨near.trans rest.begins, fun point goes => rest.linked point (goes.near near)⟩

end Stretch

/-- A point at which nothing is granted but what every code may do. -/
theorem Linked.single {mark : Mark} (still : mark.still = true) (m : Machine)
    : Linked ⟨mark, m⟩ [] m :=
  .nil (.refl still)

theorem stretch_failures (outcome : EStateM.Result (Halt Fault) Machine α)
    : Stretch outcome.last (failures outcome) outcome.last := by
  unfold failures
  split
  · exact .cons (.single rfl _) nofun
  · exact .nil _

-----------------------------------------------------------------------------------------
-- Courses
-----------------------------------------------------------------------------------------

section

variable {asks : Prop} {invoke : Invoke} {record : Invocation → Machine → List Point}
  {requested : Request → Machine → List Point}
  (calls : ∀ call now, Stretch now (record call now) (call.run invoke now).last)
  (requests : asks → ∀ request now,
    Stretch now (requested request now) (Course.answer invoke request now).last)

include calls requests

/-- The points of a quiet course, by induction over the calls and requests that it makes. -/
theorem Course.Quiet.stretch {course : Course α} (quiet : course.Quiet asks m)
    : Stretch m (course.trace invoke record requested) (course.run invoke).last := by
  induction course generalizing m with
  | ends outcome => exact Stretch.of_near (.nil _) quiet
  | calls call now next ih =>
      obtain ⟨near, rest⟩ := quiet
      have first := calls call now
      rw [← Run.last_attempt] at first
      unfold trace run
      generalize Run.attempt (call.run invoke) now = outcome at first ⊢
      refine (first.append ?_).of_near near
      rcases outcome with ⟨results, after⟩ | ⟨halt, after⟩
      · exact ih results after (rest results after)
      · exact .nil after
  | asks request now next ih =>
      obtain ⟨asking, near, rest⟩ := quiet
      have first := requests asking request now
      unfold trace run
      generalize answer invoke request now = outcome at first ⊢
      refine (first.append ?_).of_near near
      rcases outcome with ⟨reply, after⟩ | ⟨halt, after⟩
      · exact ih reply after (rest reply after)
      · exact .nil after

/-- Up to its first point a course keeps within a scope, and goes on from there. -/
theorem Course.Keeps.begins {course : Course α} {s : Scope} (keeps : course.Keeps asks s m)
    : s.Leads m course.head
      ∧ Stretch course.head (course.trace invoke record requested) (course.run invoke).last := by
  cases course with
  | ends outcome =>
      cases outcome with
      | ok a after => exact ⟨keeps.1, .nil after⟩
      | error halt after => exact ⟨keeps, .nil after⟩
  | calls call now next =>
      obtain ⟨leads, rest⟩ := keeps
      have quiet : (Course.calls call now next).Quiet asks now := ⟨.refl now, rest⟩
      exact ⟨leads, quiet.stretch calls requests⟩
  | asks request now next =>
      obtain ⟨asking, leads, rest⟩ := keeps
      have quiet : (Course.asks request now next).Quiet asks now := ⟨asking, .refl now, rest⟩
      exact ⟨leads, quiet.stretch calls requests⟩

/-- A course is linked to the point from which it keeps within what that grants. -/
theorem Course.Keeps.linked {course : Course α} {point : Point}
    (keeps : course.Keeps asks point.scope m) (comes : point.Comes m)
    (does : ∃ first, point.Does first ∧ first.Near course.head)
    : Linked point (course.trace invoke record requested) (course.run invoke).last := by
  obtain ⟨leads, stretch⟩ := keeps.begins calls requests
  exact stretch.linked point ⟨comes.trans leads, does⟩

end

/-- A course that a point begins is linked to it. -/
theorem Point.Begins.linked {invoke : Invoke} {record : Invocation → Machine → List Point}
    {requested : Request → Machine → List Point} {course : Course α} {point : Point}
    (begins : point.Begins course)
    (calls : ∀ call now, Stretch now (record call now) (call.run invoke now).last)
    (requests : point.Hosts → ∀ request now,
      Stretch now (requested request now) (Course.answer invoke request now).last)
    : Linked point (course.trace invoke record requested) (course.run invoke).last := by
  obtain ⟨outset, set, keeps⟩ := begins.keeps
  exact keeps.linked calls requests ⟨outset, set, .refl⟩ ⟨_, begins.does, .refl _⟩

-----------------------------------------------------------------------------------------
-- Entries
-----------------------------------------------------------------------------------------

theorem Machine.near_enter (m : Machine) : m.Near m.enter :=
  .counted m (m.activeCalls + 1) 0

section

variable {invoke : Invoke} {record : Invocation → Machine → List Point}
  {body : Plan (List Value)} {now : Machine}
  (calls : ∀ call now, Stretch now (record call now) (call.run invoke now).last)

include calls

/-- An entry follows a point that asks for what is done within it, up to where the entry ends. -/
theorem linked_entry {point : Point} (goes : point.Goes now)
    (asked : (body now.enter).Keeps False ⟨now.enter, point.Requests⟩ now.enter)
    (keeps : (body now.enter).Keeps False (Point.scope ⟨.entered, now.enter⟩) now.enter)
    (does : ∃ first, Point.Does ⟨.entered, now.enter⟩ first ∧ first.Near (body now.enter).head)
    : Linked point
        (⟨.entered, now.enter⟩ :: (body now.enter).trace invoke record (fun _ _ => [])
          ++ failures (body.run invoke now.enter))
        (body.run invoke now.enter).last := by
  let begins : Point := ⟨.entered, now.enter⟩
  have inside : Linked begins ((body now.enter).trace invoke record fun _ _ => []) _ :=
    keeps.linked calls False.elim (Point.Goes.refl rfl).comes does
  have failed := stretch_failures (body.run invoke now.enter)
  refine .cons (.inl (goes.near now.near_enter)) (fun _ => ?_) (inside.append failed)
  obtain ⟨leads, stretch⟩ := asked.begins calls False.elim
  exact leads.tail (.beside (stretch.append failed).begins.beside)

theorem stretch_entry (quiet : body.Quiet False)
    : Stretch now
        (⟨.entered, now.enter⟩ :: (body now.enter).trace invoke record (fun _ _ => [])
          ++ failures (body.run invoke now.enter))
        (body.run invoke now.enter).last :=
  ⟨now.near_enter, fun _ goes =>
    linked_entry calls goes (quiet.course _).keeps (quiet.course _).keeps
      ⟨_, .inl rfl, (quiet.course _).head⟩⟩

end

theorem Vm.near_leave (x : Vm α) (m : Machine) : (x m.enter).last.Near (enter x m).last := by
  unfold enter
  rcases x m.enter with ⟨results, after⟩ | ⟨halt, after⟩ <;> exact .counted after ..

-----------------------------------------------------------------------------------------
-- Errands
-----------------------------------------------------------------------------------------

/-- An errand does nothing but to count and to add natives. -/
def Errand.Quiet : Errand α → Machine → Prop
  | .ends outcome, m => m.Near outcome.last
  | .enters body now next, m =>
      m.Near now ∧ body.Quiet False ∧ ∀ results after, (next results after).Quiet after

/-- Up to its first entry an errand keeps within a scope, and from there on it is quiet. -/
def Errand.Keeps (s : Scope) : Errand α → Machine → Prop
  | .ends outcome, m => s.Kept m (fun _ _ => True) outcome
  | .enters body now next, m =>
      s.Leads m now ∧ body.Quiet False ∧ ∀ results after, (next results after).Quiet after

namespace Errand

variable {s : Scope} {invoke : Invoke} {record : Invocation → Machine → List Point}

theorem Quiet.keeps {errand : Errand α} (quiet : errand.Quiet m) : errand.Keeps s m := by
  have leads {after : Machine} (near : m.Near after) : s.Leads m after :=
    .single (.beside near.beside)
  cases errand with
  | ends outcome =>
      cases outcome with
      | ok a after => exact ⟨leads quiet, trivial⟩
      | error halt after => exact leads quiet
  | enters body now next => exact ⟨leads quiet.1, quiet.2⟩

theorem Keeps.before {errand : Errand α} (keeps : errand.Keeps s middle)
    (leads : s.Leads m middle)
    : errand.Keeps s m := by
  cases errand with
  | ends outcome => exact Scope.Kept.before keeps leads
  | enters body now next => exact ⟨leads.trans keeps.1, keeps.2⟩

theorem Quiet.head {errand : Errand α} (quiet : errand.Quiet m) : m.Near errand.head := by
  cases errand with
  | ends outcome => exact quiet
  | enters body now next => exact quiet.1

theorem once_quiet {body : Plan (List Value)} (quiet : body.Quiet False)
    (answer : List Value → α)
    : (once body answer m).Quiet m := by
  refine ⟨.refl m, quiet, fun results after => ?_⟩
  cases results <;> exact .refl after

theorem fire_quiet {next : Bool → Machine → Errand α} (arguments : List Value) (index : Nat)
    (rest : ∀ ran after, (next ran after).Quiet after)
    : (fire arguments index next m).Quiet m := by
  unfold fire
  split
  · exact rest false m
  · exact ⟨.refl m, .call .., fun _ after => rest true after⟩

/-- One connection after the other, by induction over their list. -/
theorem fireAll_quiet (arguments : List Value) (indices : List Nat)
    {next : Nat → Machine → Errand α} (rest : ∀ count after, (next count after).Quiet after)
    : (fireAll arguments indices next m).Quiet m := by
  induction indices generalizing next m with
  | nil => exact rest 0 m
  | cons index others ih =>
      exact fire_quiet arguments index fun ran after => ih fun count after => rest _ after

/-- What follows an entry, the errand being quiet from there on. -/
theorem stretch_left {body : Plan (List Value)} {now : Machine}
    {next : Except Fault (List Value) → Machine → Errand α}
    (rest : ∀ results after, Stretch after ((next results after).trace invoke record)
      ((next results after).run invoke).last)
    : Stretch (body.run invoke now.enter).last
        (⟨.left, (Vm.enter (body.run invoke) now).last⟩
          :: (Run.attempt (Vm.enter (body.run invoke)) now).sequel fun results after =>
            (next results after).trace invoke record)
        ((Errand.enters body now next).run invoke).last := by
  refine Stretch.of_near ?_ (Vm.near_leave (body.run invoke) now)
  unfold run Run.attempt
  rcases Vm.enter (body.run invoke) now with ⟨results, after⟩ | ⟨fault | _, after⟩
  · exact .cons ((rest (.ok results) after).linked ⟨.left, after⟩ (.refl rfl)) Mark.noConfusion
  · exact .cons ((rest (.error fault) after).linked ⟨.left, after⟩ (.refl rfl)) Mark.noConfusion
  · exact .cons (.single rfl after) Mark.noConfusion

section

variable (calls : ∀ call now, Stretch now (record call now) (call.run invoke now).last)

include calls

/-- The points of a quiet errand, by induction over its entries. -/
theorem Quiet.stretch {errand : Errand α} (quiet : errand.Quiet m)
    : Stretch m (errand.trace invoke record) (errand.run invoke).last := by
  induction errand generalizing m with
  | ends outcome => exact Stretch.of_near (.nil _) quiet
  | enters body now next ih =>
      obtain ⟨near, calm, rest⟩ := quiet
      have left : Stretch (body.run invoke now.enter).last _
          ((Errand.enters body now next).run invoke).last :=
        stretch_left fun results after => ih results after (rest results after)
      exact ((stretch_entry calls calm).append left).of_near near

/-- An errand is linked to the point from which it keeps within what that grants. -/
theorem Keeps.linked {errand : Errand α} {point : Point} (keeps : errand.Keeps point.scope m)
    (comes : point.Comes m) (does : point.Does errand.head)
    : Linked point (errand.trace invoke record) (errand.run invoke).last := by
  have goes {now : Machine} (leads : point.scope.Leads m now) (head : errand.head = now)
      : point.Goes now :=
    ⟨comes.trans leads, ⟨now, head ▸ does, .refl now⟩⟩
  cases errand with
  | ends outcome =>
      cases outcome with
      | ok a after => exact .nil (goes keeps.1 rfl)
      | error halt after => exact .nil (goes keeps rfl)
  | enters body now next =>
      obtain ⟨leads, rest⟩ := keeps
      have quiet : (Errand.enters body now next).Quiet now := ⟨.refl now, rest⟩
      exact (quiet.stretch calls).linked point (goes leads rfl)

end

end Errand

-----------------------------------------------------------------------------------------
-- Requests
-----------------------------------------------------------------------------------------

namespace Request

variable {invoke : Invoke} {record : Invocation → Machine → List Point}

/-- A request does what the point at which it is made grants. -/
theorem errand_keeps {request : Request} (uncollected : request ≠ .collect)
    (unset : ∀ level, request ≠ .setLevel level)
    (unassigned : ∀ object key value, request ≠ .assign object key value) (m : Machine)
    : (request.errand m).Keeps (Point.scope ⟨.asks request, m⟩) m := by
  have allowed (deed : Deed) (grants : request.Grants m deed)
      : Point.Grants ⟨.asks request, m⟩ deed :=
    .asks rfl grants
  have precedes := (Point.scope ⟨.asks request, m⟩).precedes_origin
  have done {α : Type} (a : α) (after : Machine) : (Errand.ends (.ok a after)).Quiet after :=
    .refl after
  cases aside : request.enters with
  | false =>
      rw [errand_aside aside (fun _ _ _ _ => pure []) m]
      exact serve_kept (s := Point.scope ⟨.asks request, m⟩) _ aside allowed uncollected unset
  | true =>
      cases request with
      | call f arguments => exact (Errand.once_quiet (Plan.Quiet.call ..) _).keeps
      | index object key =>
          have read : (Plan.index object key 0).Quiet False := Plan.index_quiet object key
          exact (Errand.once_quiet (read.andThen fun _ => .pure _) _).keeps
      | assign object key value => exact absurd rfl (unassigned object key value)
      | readShared name =>
          have found : Scope.Kept _ m _ (Environment.find .runtime m) :=
            Environment.find_kept (allowed _ .readShared) precedes (fun _ => rfl) .runtime
          unfold errand
          dsimp only
          generalize Environment.find .runtime m = outcome at found ⊢
          cases outcome with
          | ok ref after =>
              have read : (Plan.index (.table ref) (.string name) 0).Quiet False :=
                Plan.index_quiet _ _
              have once := read.andThen fun value => .pure [value]
              exact (Errand.once_quiet once _).keeps.before found.1
          | error halt after => exact found
      | fire index arguments =>
          exact (Errand.fire_quiet arguments index done).keeps
      | fireSignal signal arguments =>
          exact (Errand.fireAll_quiet arguments _ done).keeps
      | _ => simp [enters] at aside

/-- Setting a level is what the point sets out with, if the level is in range. -/
theorem setLevel_keeps (level : Int) (m : Machine)
    : ∃ outset, Point.Outset ⟨.asks (.setLevel level), m⟩ outset
        ∧ ((Request.setLevel level).errand m).Keeps (Point.scope ⟨.asks (.setLevel level), m⟩)
            outset := by
  change ∃ outset, _ ∧ (Errand.ends (Clearance.setLevel level m)).Keeps _ outset
  unfold Clearance.setLevel
  by_cases outside : level < 0 ∨ maxLevel < level
  · rw [if_pos outside]
    refine ⟨m, .plain fun other sets => ?_, .refl⟩
    obtain ⟨same, least, most⟩ := sets.of_asks
    cases same
    exact outside.elim (Int.not_lt.mpr least) (Int.not_lt.mpr most)
  · rw [if_neg outside]
    rw [not_or, Int.not_lt, Int.not_lt] at outside
    exact ⟨_, .set (.asks rfl outside.1 outside.2), .refl, trivial⟩

/-- An assignment writes where the point at which it is asked for says. -/
theorem assign_linked (object key value : Value) (m : Machine)
    (calls : ∀ call now, Stretch now (record call now) (call.run invoke now).last)
    : Linked ⟨.asks (.assign object key value), m⟩
        (((Request.assign object key value).errand m).trace invoke record)
        (((Request.assign object key value).errand m).run invoke).last := by
  let point : Point := ⟨.asks (.assign object key value), m⟩
  have goes : point.Goes m :=
    ⟨⟨m, .plain fun _ sets => (nomatch sets.of_asks.1), .refl⟩, ⟨m, rfl, .refl m⟩⟩
  have written {s : Scope}
      (allowed : ∀ ref, m.enter.Delivers key ref Vm.maxChain object → s.allows (.write ref))
      : ((do Plan.assign object key value 0; return [] : Plan (List Value)) m.enter).Keeps False s
          m.enter :=
    (Plan.assign_keeps object key value allowed).bind fun _ => .pure _
  have head := Course.head_bind_pure (Plan.assign object key value 0 m.enter)
    fun _ => ([] : List Value)
  have entry := linked_entry calls goes
    (written fun ref delivers => ⟨_, rfl, .assign (delivers.of_tables rfl)⟩)
    (written fun ref _ => .enters rfl rfl)
    ⟨_, .inr ⟨object, key, value, rfl⟩, (Machine.Near.refl _).trans (head ▸ .refl _)⟩
  refine entry.append (Errand.stretch_left fun results after => ?_)
  cases results <;> exact .nil after

theorem last_answer (request : Request) (m : Machine)
    : (Course.answer invoke request m).last = ((request.errand m).run invoke).last := by
  rw [← serve_eq_errand]
  exact (Run.last_mapError ..).trans (Run.last_attempt ..)

/-- A request goes from the point at which it is made to that at which it is answered. -/
theorem stretch (request : Request) (m : Machine)
    (calls : ∀ call now, Stretch now (record call now) (call.run invoke now).last)
    : Stretch m (request.trace invoke record m) (Course.answer invoke request m).last := by
  have answered (outcome : EStateM.Result (Halt Fault) Machine (Except Failure request.Answer))
      : Stretch outcome.last
          (outcome.sequel fun reply after => [⟨.answered request reply, after⟩]) outcome.last := by
    cases outcome with
    | ok reply after => exact .cons (.single rfl after) nofun
    | error halt after => exact .nil after
  -- What a collection frees may have been there where it is asked for.
  by_cases collects : request = .collect
  · subst collects
    have moves : Point.Moves ⟨.asks .collect, m⟩ m.collect.2 := .inr ⟨rfl, rfl⟩
    have answer (reply : Except Failure (Option Nat)) (now : Machine)
        : Linked ⟨.answered .collect reply, now⟩ [] now :=
      .single rfl now
    exact .cons (.cons moves (Point.opens_of_ne (by nofun) _) (answer _ _)) nofun
  refine Stretch.append ?_ (answered _)
  rw [last_answer]
  refine .cons (?_ : Linked ⟨.asks request, m⟩ _ _) nofun
  by_cases assigns : ∃ object key value, request = .assign object key value
  · obtain ⟨object, key, value, rfl⟩ := assigns
    exact assign_linked object key value m calls
  obtain ⟨outset, set, keeps⟩
      : ∃ outset, Point.Outset ⟨.asks request, m⟩ outset
          ∧ (request.errand m).Keeps (Point.scope ⟨.asks request, m⟩) outset := by
    by_cases sets : ∃ level, request = .setLevel level
    · obtain ⟨level, rfl⟩ := sets
      exact setLevel_keeps level m
    · have unset (level : Int) : request ≠ .setLevel level := fun same => sets ⟨level, same⟩
      have unassigned (object key value : Value) : request ≠ .assign object key value :=
        fun same => assigns ⟨object, key, value, same⟩
      refine ⟨m, .plain fun level sets => ?_, errand_keeps collects unset unassigned m⟩
      exact unset level sets.of_asks.1
  exact keeps.linked calls ⟨outset, set, .refl⟩ rfl

end Request

-----------------------------------------------------------------------------------------
-- Calls
-----------------------------------------------------------------------------------------

/-- Fetching an instruction fails in place, or has done no more than to count it. -/
theorem Vm.fetch_near (frame : Frame) (m : Machine)
    : (∃ halt, fetch frame m = .error halt m)
      ∨ ∃ i charged, m.Near charged ∧ fetch frame m = .ok i charged := by
  rcases fetch_cases frame m with ⟨fault, failed⟩ | ⟨i, ⟨-, fetched⟩ | ⟨-, fetched⟩⟩
  · exact .inl ⟨_, failed⟩
  · exact .inr ⟨i, m, .refl m, fetched⟩
  · exact .inr ⟨i, _, .counted m .., fetched⟩

/-- A stack goes from instruction to instruction, by induction over the fuel. -/
theorem stretch_stack {invoke : Invoke} {record : Invocation → Machine → List Point}
    (calls : ∀ call now, Stretch now (record call now) (call.run invoke now).last) (fuel : Nat)
    (top : Layer) (callers : List Layer) (m : Machine)
    : Stretch m (stackTrace invoke record fuel top callers m)
        (Vm.runFrames invoke fuel top callers m).last := by
  induction fuel generalizing top callers m with
  | zero => exact .nil m
  | succ fuel ih =>
      unfold stackTrace
      rw [Plan.runFrames_eq]
      rcases Vm.fetch_near top.frame m with ⟨halt, failed⟩ | ⟨i, charged, near, fetched⟩
      · rw [failed, Run.bind_error failed]
        exact .nil m
      · rw [fetched, Run.bind_ok fetched]
        have advanced := (Plan.advance_begins top callers i charged).linked
          calls fun _ request now => request.stretch now calls
        refine .of_near (.append (.cons advanced Mark.noConfusion) ?_) near
        change Stretch ((Plan.advance top callers i).run invoke charged).last _ _
        rcases ran : (Plan.advance top callers i).run invoke charged with
          ⟨results | ⟨top, callers⟩, after⟩ | ⟨halt, after⟩
        · rw [Run.bind_ok ran]
          exact .nil after
        · rw [Run.bind_ok ran]
          exact ih top callers after
        · rw [Run.bind_error ran]
          exact .nil after

/-- A call goes from where it begins to where it ends, by induction over the fuel. -/
theorem stretch_call (fuel : Nat) (call : Invocation) (m : Machine)
    : Stretch m (callTrace fuel call m) (call.run (Vm.call fuel) m).last := by
  induction fuel generalizing call m with
  | zero => exact .nil m
  | succ fuel ih =>
      have started := (Plan.start_begins call m).linked ih fun _ request now => request.stretch now ih
      have ended := stretch_failures (call.run (Vm.call (fuel + 1)) m)
      unfold callTrace
      refine .append (.append (.cons started nofun) ?_) ended
      change Stretch ((Plan.start call).run (Vm.call fuel) m).last _ _
      rw [Plan.call_eq]
      rcases ran : (Plan.start call).run (Vm.call fuel) m with
        ⟨results | frame, after⟩ | ⟨halt, after⟩
      · rw [Run.bind_ok ran]
        exact .nil after
      · rw [Run.bind_ok ran]
        exact stretch_stack ih fuel ⟨frame, .forward⟩ [] after
      · rw [Run.bind_error ran]
        exact .nil after

/-- A session of the host goes on from where the last entry from the host has ended. -/
theorem HostProgram.linked (fuel : Nat) (session : HostProgram) (m : Machine)
    : Linked ⟨.left, m⟩ (session.trace fuel m)
        ((Plan.program none 0 session).run (Vm.call fuel) m).last := by
  have quiet : (Plan.program none 0 session).Quiet True := Plan.program_quiet trivial session
  have stretch := (quiet.course m).stretch (stretch_call fuel)
    fun _ request now => request.stretch now (stretch_call fuel)
  exact stretch.linked ⟨.left, m⟩ (.refl rfl)

end HookMachine
