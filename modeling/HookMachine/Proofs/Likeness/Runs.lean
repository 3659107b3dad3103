import HookMachine.Proofs.Likeness.Calls
import HookMachine.Proofs.Likeness.Requests

/-!
Whole runs that go alike, and what is kept of the points that they come by. A watch keeps a state
from point to point; a likeness that is conducted by it holds in that state at every point, and
calls that begin alike end alike.
-/

namespace HookMachine

/-- Whether a point of a run changes what is kept of it: an entry begins or ends, or the answer to
a request has moved what is retained.
-/
def Mark.moves : Mark → Bool
  | .called _ | .executes .. | .failed _ | .asks _ => false
  | .answered request _ => request.moves
  | .entered | .left => true

/-- What is kept of a run from point to point. -/
structure Watch (ι : Type) where
  /-- What a point makes of the state before it. -/
  note : Mark → ι → ι
  /-- Which points may be met in a state. -/
  permits : ι → Point → Prop
  /-- Which states a call may lead to. -/
  onward : ι → ι → Prop

namespace Watch

variable {ι : Type} (w : Watch ι)

/-- The state after points. -/
def noted (i : ι) (points : List Point) : ι :=
  points.foldl (fun i point => w.note point.mark i) i

/-- Every point is met in a state in which it may be met. -/
def Allows : ι → List Point → Prop
  | _, [] => True
  | i, point :: rest => w.permits i point ∧ Allows (w.note point.mark i) rest

instance decidableAllows [∀ i point, Decidable (w.permits i point)] (i : ι)
    : (points : List Point) → Decidable (w.Allows i points)
  | [] => .isTrue trivial
  | point :: rest =>
      have := decidableAllows (w.note point.mark i) rest
      inferInstanceAs (Decidable (w.permits i point ∧ w.Allows (w.note point.mark i) rest))

variable {w}

theorem noted_append (i : ι) (first second : List Point)
    : w.noted i (first ++ second) = w.noted (w.noted i first) second :=
  List.foldl_append

theorem allows_append {i : ι} {first second : List Point}
    : w.Allows i (first ++ second) ↔ w.Allows i first ∧ w.Allows (w.noted i first) second := by
  induction first generalizing i with
  | nil => simp [Allows, noted]
  | cons point rest ih => simp [Allows, noted, ih, and_assoc]

end Watch

namespace Likeness

variable {ι α β : Type} (L : Likeness ι) (w : Watch ι)

/-- At every point the machine is like another in the state that the point leaves. -/
def Shown : ι → List Point → Prop
  | _, [] => True
  | i, point :: rest =>
      (∃ n, L.machines (w.note point.mark i) point.machine n) ∧ Shown (w.note point.mark i) rest

/-- A likeness of machines that runs keep under a watch, if what they meet is permitted. -/
structure Conducted : Prop extends L.Paced where
  refl (i) : w.onward i i
  trans {i j k} : w.onward i j → w.onward j k → w.onward i k
  still {i mark} : mark.moves = false → w.note mark i = i
  stays {i fault m} : w.permits i ⟨.failed fault, m⟩ → ¬L.escapes fault
  quiet {i point n} : w.permits i point → point.Calls n → n.Surveys → L.tie.Whole
  enters {i m n} : L.machines i m n → L.machines (w.note .entered i) m.enter n.enter
  leaves {i j m n after other} : L.machines i m n → w.onward (w.note .entered i) j
    → L.machines j after other
    → L.machines (w.note .left j) (after.leave m.steps) (other.leave n.steps)
      ∧ w.onward i (w.note .left j)
  moves {i m n r s} {answers : r.Answer → s.Answer → Prop} (invoke) : L.tie.Requests r s answers
    → r.moves = true → w.permits i ⟨.asks r, m⟩ → L.machines i m n
    → ∃ o p after other, Course.answer invoke r m = .ok o after
      ∧ Course.answer invoke s n = .ok p other ∧ Matched answers o p
      ∧ L.machines (w.note (.answered r o) i) after other
      ∧ w.onward i (w.note (.answered r o) i)

/-- What comes of points if all of them are permitted: they are shown, and lead to a state from
which a result holds.
-/
structure Watched (i : ι) (points : List Point) (result : ι → Prop) : Prop where
  kept : w.Allows i points
    → L.Shown w i points ∧ w.onward i (w.noted i points) ∧ result (w.noted i points)

variable {L w} {i : ι} {points first second : List Point} {result last : ι → Prop}
  {m n : Machine}

theorem shown_append
    : L.Shown w i (first ++ second) ↔ L.Shown w i first ∧ L.Shown w (w.noted i first) second := by
  induction first generalizing i with
  | nil => simp [Shown, Watch.noted]
  | cons point rest ih => simp [Shown, Watch.noted, ih, and_assoc]

/-- What is shown of a point among others. -/
theorem Shown.point {before rest : List Point} {point : Point}
    (shown : L.Shown w i (before ++ point :: rest))
    : ∃ n, L.machines (w.noted i (before ++ [point])) point.machine n := by
  rw [Watch.noted_append]
  exact (shown_append.mp shown).2.1

variable (conducted : L.Conducted w)

include conducted

-----------------------------------------------------------------------------------------
-- Points
-----------------------------------------------------------------------------------------

namespace Watched

/-- Where no point is met, nothing changes. -/
theorem nil (holds : result i) : L.Watched w i [] result :=
  ⟨fun _ => ⟨trivial, conducted.refl i, holds⟩⟩

theorem append (earlier : L.Watched w i first result)
    (later : ∀ j, result j → L.Watched w j second last)
    : L.Watched w i (first ++ second) last := by
  refine ⟨fun allows => ?_⟩
  obtain ⟨before, after⟩ := Watch.allows_append.mp allows
  obtain ⟨shown, onward, holds⟩ := earlier.kept before
  obtain ⟨also, further, settled⟩ := (later _ holds).kept after
  rw [Watch.noted_append]
  exact ⟨shown_append.mpr ⟨shown, also⟩, conducted.trans onward further, settled⟩

/-- A point that changes nothing of what is kept. -/
theorem cons {mark : Mark} (still : mark.moves = false) (alike : L.machines i m n)
    (rest : w.permits i ⟨mark, m⟩ → L.Watched w i points result)
    : L.Watched w i (⟨mark, m⟩ :: points) result := by
  refine ⟨fun ⟨permits, allows⟩ => ?_⟩
  have same : w.note mark i = i := conducted.still still
  simp only [same] at allows
  obtain ⟨shown, onward, holds⟩ := (rest permits).kept allows
  simp only [Shown, Watch.noted, List.foldl_cons, same]
  exact ⟨⟨⟨n, alike⟩, shown⟩, onward, holds⟩

end Watched

/-- One operation after the other: the second has its points where the first comes to a result. -/
theorem Watched.bind {γ δ : Type} {related : α → β → Prop} {final : γ → δ → Prop} {x : Vm α}
    {y : Vm β} {f : α → Vm γ} {g : β → Vm δ} {more : α → Machine → List Point}
    (earlier : L.Watched w i first fun j => L.Follows j related (x m) (y n))
    (later : ∀ {j a b after other}, related a b → L.machines j after other
      → L.Watched w j (more a after) fun k => L.Follows k final (f a after) (g b other))
    : L.Watched w i (first ++ (x m).sequel more) fun j =>
        L.Follows j final ((x >>= f) m) ((y >>= g) n) := by
  refine earlier.append conducted fun j follows => ?_
  change L.Watched w j _ fun k => L.Follows k final (EStateM.bind x f m) (EStateM.bind y g n)
  unfold EStateM.bind
  generalize x m = p at *
  generalize y n = q at *
  cases follows with
  | escapes escapes after => exact .nil conducted (.escapes escapes after _)
  | alike outcomes =>
      cases outcomes with
      | ok alike holds => exact later holds alike
      | error halt alike => exact .nil conducted (.alike (.error halt alike))

-----------------------------------------------------------------------------------------
-- Courses
-----------------------------------------------------------------------------------------

variable {asks : Prop} {related : α → β → Prop} {invoke : Invoke}
  {record : Invocation → Machine → List Point}

/-- What like courses come by, if like calls come to like outcomes, and like requests to like
answers; by induction over how they are alike.
-/
theorem course_watched {requested : Request → Machine → List Point} {c : Course α} {d : Course β}
    (calls : ∀ {i c d m n}, L.tie.Invocations c d → L.machines i m n
      → L.Watched w i (record c m) fun j =>
          L.Outcomes j L.tie.Lists (c.run invoke m) (d.run invoke n))
    (requests : asks → ∀ {i r s m n} {answers : r.Answer → s.Answer → Prop},
      L.tie.Requests r s answers → L.machines i m n
      → L.Watched w i (requested r m) fun j =>
          L.Outcomes j (Matched answers) (Course.answer invoke r m) (Course.answer invoke s n))
    (alike : L.Alike asks related i c d)
    : L.Watched w i (c.trace invoke record requested) fun j =>
        L.Follows j related (c.run invoke) (d.run invoke) := by
  induction alike with
  | escapes escapes after => exact .nil conducted (.escapes escapes after _)
  | ends outcomes => exact .nil conducted (.alike outcomes)
  | @calls i c d called m n machines next next' _ ih =>
      refine .append conducted (calls called machines) fun j outcomes => ?_
      have tried := outcomes.attempt
      unfold Course.run
      generalize Run.attempt (c.run invoke) m = p at *
      generalize Run.attempt (d.run invoke) n = q at *
      cases tried with
      | ok alike matched => exact ih matched alike
      | error halt alike => exact .nil conducted (.alike (.error halt alike))
  | @asks i allowed r s answers request m n machines next next' _ ih =>
      refine .append conducted (requests allowed request machines) fun j outcomes => ?_
      unfold Course.run
      generalize Course.answer invoke r m = p at *
      generalize Course.answer invoke s n = q at *
      cases outcomes with
      | ok alike matched => exact ih matched alike
      | error halt alike => exact .nil conducted (.alike (.error halt alike))

/-- An operation that has not escaped passes the point at which it fails, if it does. -/
theorem failures_watched {p : EStateM.Result (Halt Fault) Machine α}
    {q : EStateM.Result (Halt Fault) Machine β} (follows : L.Follows i related p q)
    : L.Watched w i (failures p) fun j => L.Outcomes j related p q := by
  cases follows with
  | escapes escapes after =>
      exact ⟨fun ⟨permits, _⟩ => absurd escapes (conducted.stays permits)⟩
  | alike outcomes =>
      cases outcomes with
      | ok alike holds => exact .nil conducted (.ok alike holds)
      | error halt alike =>
          cases halt with
          | failed fault =>
              exact .cons conducted rfl alike fun _ => .nil conducted (.error _ alike)
          | outOfFuel => exact .nil conducted (.error _ alike)

-----------------------------------------------------------------------------------------
-- Requests
-----------------------------------------------------------------------------------------

omit conducted in
variable (L) in
/-- Errands that enter like machines to do like things, whatever comes back. -/
inductive Errands (answers : α → β → Prop) : ι → Errand α → Errand β → Prop
  | ends {i : ι} {p : EStateM.Result (Halt Failure) Machine α}
    {q : EStateM.Result (Halt Failure) Machine β} (outcomes : L.Outcomes i answers p q)
    : Errands answers i (.ends p) (.ends q)
  | enters {i : ι} {body other : Plan (List Value)}
    (bodies : L.Concur False body other L.tie.Lists) {m n : Machine} (machines : L.machines i m n)
    {next : Except Fault (List Value) → Machine → Errand α}
    {next' : Except Fault (List Value) → Machine → Errand β}
    (rest : ∀ {j o p m n}, Matched L.tie.Lists o p → L.machines j m n
      → Errands answers j (next o m) (next' p n))
    : Errands answers i (.enters body m next) (.enters other n next')

/-- The points of one entry from the host, if what is done within it is done alike. -/
theorem entry_watched {x : Vm α} {y : Vm β} {inner : List Point}
    (within : ∀ i, L.machines i m.enter n.enter
      → L.Watched w i inner fun j => L.Outcomes j related (x m.enter) (y n.enter))
    (alike : L.machines i m n)
    : L.Watched w i (⟨.entered, m.enter⟩ :: inner ++ [⟨.left, (Vm.enter x m).last⟩]) fun j =>
        L.Outcomes j related (Vm.enter x m) (Vm.enter y n) := by
  have entered := conducted.enters alike
  refine ⟨fun ⟨_, allows⟩ => ?_⟩
  obtain ⟨shown, onward, outcomes⟩ :=
    (within _ entered).kept (Watch.allows_append.mp allows).1
  have ends : (∃ other, L.machines (w.note .left (w.noted (w.note .entered i) inner))
        (Vm.enter x m).last other)
      ∧ w.onward i (w.note .left (w.noted (w.note .entered i) inner))
      ∧ L.Outcomes (w.note .left (w.noted (w.note .entered i) inner)) related (Vm.enter x m)
          (Vm.enter y n) := by
    unfold Vm.enter
    generalize x m.enter = p at *
    generalize y n.enter = q at *
    cases outcomes with
    | ok still holds =>
        obtain ⟨left, onward⟩ := conducted.leaves alike onward still
        exact ⟨⟨_, left⟩, onward, .ok left holds⟩
    | error halt still =>
        obtain ⟨left, onward⟩ := conducted.leaves alike onward still
        exact ⟨⟨_, left⟩, onward, .error halt left⟩
  obtain ⟨left, onward, outcomes⟩ := ends
  have noted : w.noted i (⟨.entered, m.enter⟩ :: inner ++ [⟨.left, (Vm.enter x m).last⟩])
      = w.note .left (w.noted (w.note .entered i) inner) :=
    Watch.noted_append (w.note .entered i) inner _
  rw [noted]
  exact ⟨⟨⟨_, entered⟩, shown_append.mpr ⟨shown, left, trivial⟩⟩, onward, outcomes⟩

/-- What like errands come by, by induction over how they are alike. -/
theorem errand_watched {answers : α → β → Prop} {e : Errand α} {f : Errand β}
    (calls : ∀ {i c d m n}, L.tie.Invocations c d → L.machines i m n
      → L.Watched w i (record c m) fun j =>
          L.Outcomes j L.tie.Lists (c.run invoke m) (d.run invoke n))
    (errands : L.Errands answers i e f)
    : L.Watched w i (e.trace invoke record) fun j =>
        L.Outcomes j answers (e.run invoke) (f.run invoke) := by
  induction errands with
  | ends outcomes => exact .nil conducted outcomes
  | @enters i body other bodies m n machines next next' _ ih =>
      have within (i : ι) (alike : L.machines i m.enter n.enter)
          : L.Watched w i
              ((body m.enter).trace invoke record (fun _ _ => [])
                ++ failures (body.run invoke m.enter))
              fun j => L.Outcomes j L.tie.Lists (body.run invoke m.enter)
                (other.run invoke n.enter) :=
        (course_watched conducted calls (fun none => none.elim)
          (bodies.course alike)).append conducted fun j follows =>
            failures_watched conducted follows
      have entry := entry_watched conducted (x := body.run invoke) (y := other.run invoke)
        within machines
      rw [Errand.trace, List.append_cons]
      refine entry.append conducted fun j outcomes => ?_
      unfold Errand.run Run.attempt
      generalize Vm.enter (body.run invoke) m = p at *
      generalize Vm.enter (other.run invoke) n = q at *
      cases outcomes with
      | ok alike results => exact ih (.ok results) alike
      | error halt alike =>
          cases halt with
          | failed fault => exact ih (.error fault) alike
          | outOfFuel => exact .nil conducted (.error _ alike)

omit conducted in
/-- Firing a connection is a like errand in like machines. -/
theorem errands_fire (lawful : L.Lawful) (level : L.tie.shift = 0) {answers : α → β → Prop}
    {xs ys : List Value} (arguments : L.tie.Lists xs ys) (index : Nat)
    {next : Bool → Machine → Errand α} {next' : Bool → Machine → Errand β}
    (rest : ∀ {j ran m n}, L.machines j m n → L.Errands answers j (next ran m) (next' ran n))
    (alike : L.machines i m n)
    : L.Errands answers i (.fire xs index next m) (.fire ys index next' n) := by
  have callback := (lawful.reads alike).connections.callback? index
  unfold Errand.fire
  generalize ConnectionRegistry.callback? m.connections index = o at *
  generalize ConnectionRegistry.callback? n.connections index = p at *
  cases callback with
  | none => exact rest alike
  | some callback =>
      exact .enters (.call callback arguments .none (by omega)) alike fun _ alike => rest alike

omit conducted in
theorem errands_fireAll (lawful : L.Lawful) (level : L.tie.shift = 0) {answers : α → β → Prop}
    {xs ys : List Value} (arguments : L.tie.Lists xs ys) (indices : List Nat)
    {next : Nat → Machine → Errand α} {next' : Nat → Machine → Errand β}
    (rest : ∀ {j count m n}, L.machines j m n
      → L.Errands answers j (next count m) (next' count n))
    (alike : L.machines i m n)
    : L.Errands answers i (.fireAll xs indices next m) (.fireAll ys indices next' n) := by
  induction indices generalizing i next next' m n with
  | nil => exact rest alike
  | cons index indices ih =>
      exact errands_fire lawful level arguments index (fun alike => ih rest alike) alike

omit conducted in
theorem errands_once {answers : α → β → Prop} {body other : Plan (List Value)}
    (bodies : L.Concur False body other L.tie.Lists) {answer : List Value → α}
    {answer' : List Value → β} (results : ∀ {xs ys}, L.tie.Lists xs ys
      → answers (answer xs) (answer' ys))
    (alike : L.machines i m n)
    : L.Errands answers i (.once body answer m) (.once other answer' n) := by
  refine .enters bodies alike fun outcome alike => ?_
  cases outcome with
  | ok lists => exact .ends (.ok alike (results lists))
  | error fault => exact .ends (.error _ alike)

omit conducted in
/-- Reading a field is a like errand in like machines. -/
theorem errands_index (lawful : L.Lawful) (level : L.tie.shift = 0) {v w k l : Value}
    (object : L.tie.Values v w) (key : L.tie.Values k l) (alike : L.machines i m n)
    : L.Errands L.tie.Values i
        (.once (do return [← Plan.index v k 0]) (·.headD .nil) m)
        (.once (do return [← Plan.index w l 0]) (·.headD .nil) n) := by
  refine errands_once ?_ (fun lists => lists.headD) alike
  exact (index_concur lawful (by omega) object key).bind fun _ _ value =>
    .pure (.cons value .nil)

/-- Like requests that enter the machine are like errands in like machines. -/
theorem errands_of_enters {r s : Request} {answers : r.Answer → s.Answer → Prop}
    (requests : L.tie.Requests r s answers) (enters : r.enters = true) (alike : L.machines i m n)
    : L.Errands answers i (r.errand m) (s.errand n) := by
  have lawful := conducted.toLawful
  cases requests with
  | call level f arguments =>
      exact errands_once (.call f arguments .none (by omega)) id alike
  | index level object key => exact errands_index lawful level object key alike
  | assign level object key value =>
      refine errands_once ?_ (fun _ => rfl) alike
      exact (assign_concur lawful (by omega) object key value).andThen fun _ _ => .pure .nil
  | readShared level name =>
      have found := (conducted.find .runtime).outcome alike
      simp only [Request.errand]
      generalize Environment.find .runtime m = p at *
      generalize Environment.find .runtime n = q at *
      cases found with
      | ok alike tied => exact errands_index lawful level (.table tied) (.string name) alike
      | error halt alike => exact .ends (.error halt alike)
  | fire level index arguments =>
      simp only [Request.errand]
      exact errands_fire lawful level arguments index (fun alike => .ends (.ok alike rfl)) alike
  | fireSignal level signal arguments =>
      simp only [Request.errand, (lawful.reads alike).connections.ofSignal signal]
      exact errands_fireAll lawful level arguments _ (fun alike => .ends (.ok alike rfl)) alike
  | @plain r plain => cases r <;> simp_all [Request.isPlain, Request.enters]
  | _ => simp [Request.enters] at enters

/-- What like requests come by, from where they are made to where they are answered. -/
theorem request_watched {r s : Request} {answers : r.Answer → s.Answer → Prop}
    (calls : ∀ {i c d m n}, L.tie.Invocations c d → L.machines i m n
      → L.Watched w i (record c m) fun j =>
          L.Outcomes j L.tie.Lists (c.run invoke m) (d.run invoke n))
    (requests : L.tie.Requests r s answers) (alike : L.machines i m n)
    : L.Watched w i (r.trace invoke record m) fun j =>
        L.Outcomes j (Matched answers) (Course.answer invoke r m) (Course.answer invoke s n) := by
  have answered (still : r.moves = false) {j : ι}
      (outcomes : L.Outcomes j answers (serve invoke r m) (serve invoke s n))
      : L.Watched w j
          ((Course.answer invoke r m).sequel fun reply after => [⟨.answered r reply, after⟩])
          fun j => L.Outcomes j (Matched answers) (Course.answer invoke r m)
            (Course.answer invoke s n) := by
    have replies := (outcomes.attempt).mapError Failure.toFault
    unfold Course.answer
    generalize Run.mapError Failure.toFault (Run.attempt (serve invoke r)) m = p at *
    generalize Run.mapError Failure.toFault (Run.attempt (serve invoke s)) n = q at *
    cases replies with
    | ok alike matched =>
        exact .cons conducted still alike fun _ => .nil conducted (.ok alike matched)
    | error halt alike => exact .nil conducted (.error halt alike)
  refine .cons conducted rfl alike fun permits => ?_
  by_cases enters : r.enters = true
  · have errands := errand_watched conducted calls (errands_of_enters conducted requests enters alike)
    refine errands.append conducted fun j outcomes => ?_
    rw [← serve_eq_errand, ← serve_eq_errand] at outcomes
    refine answered ?_ outcomes
    cases r <;> first | rfl | simp [Request.enters] at enters
  · have aside : r.enters = false := by simpa using enters
    rw [Request.errand_aside aside invoke]
    by_cases moves : r.moves = true
    · obtain ⟨o, p, after, other, ran, also, matched, alike', onward⟩ :=
        conducted.moves invoke requests moves permits alike
      rw [ran, also]
      refine ⟨fun _ => ⟨⟨⟨other, alike'⟩, trivial⟩, onward, .ok alike' matched⟩⟩
    · have still : r.moves = false := by simpa using moves
      exact answered still
        ((serve_agree conducted.toRegular requests aside still invoke invoke).outcome alike)

-----------------------------------------------------------------------------------------
-- Calls
-----------------------------------------------------------------------------------------

theorem fetch_follows {f g : Frame} (frames : L.tie.Frames f g) (alike : L.machines i m n)
    : L.Follows i Eq (Vm.fetch f m) (Vm.fetch g n) := by
  unfold Vm.fetch
  rw [frames.code, frames.pc]
  cases g.code[g.pc]? with
  | none => exact .alike (.error _ alike)
  | some instruction =>
      exact (conducted.charge alike).bind fun _ alike => .alike (.ok alike rfl)

/-- What like stacks come by, if like calls come to like outcomes; by induction over the
instructions.
-/
theorem stack_watched
    (calls : ∀ {i c d m n}, L.tie.Invocations c d → L.machines i m n
      → L.Watched w i (record c m) fun j =>
          L.Outcomes j L.tie.Lists (c.run invoke m) (d.run invoke n))
    (fuel : Nat) {top other : Layer} (layers : L.tie.Layers top other)
    {callers others : List Layer} (below : callers.Forall₂ L.tie.Layers others)
    (alike : L.machines i m n)
    : L.Watched w i (stackTrace invoke record fuel top callers m) fun j =>
        L.Follows j L.tie.Lists (Vm.runFrames invoke fuel top callers m)
          (Vm.runFrames invoke fuel other others n) := by
  induction fuel generalizing i top other callers others m n with
  | zero => exact .nil conducted (.alike (.error _ alike))
  | succ fuel ih =>
      have fetched := fetch_follows conducted layers.frame alike
      rw [Plan.runFrames_eq, Plan.runFrames_eq, stackTrace]
      refine (Watched.nil conducted fetched).bind conducted fun {_ instruction _ _ _} same alike => ?_
      subst same
      refine .cons conducted rfl alike fun permits => ?_
      have goes := advance_alike conducted.toPaced layers below instruction alike
        fun n => conducted.quiet permits
      refine (course_watched conducted calls (fun _ => request_watched conducted calls)
        goes).bind conducted fun outputs alike => ?_
      cases outputs with
      | results lists => exact .nil conducted (.alike (.ok alike lists))
      | stack layers below => exact ih layers below alike

/-- Calls that begin alike end alike, by induction over the fuel. -/
theorem call_watched (fuel : Nat) {c d : Invocation} (calls : L.tie.Invocations c d)
    (alike : L.machines i m n)
    : L.Watched w i (callTrace fuel c m) fun j =>
        L.Outcomes j L.tie.Lists (c.run (Vm.call fuel) m) (d.run (Vm.call fuel) n) := by
  induction fuel generalizing i c d m n with
  | zero => exact .nil conducted (.error _ alike)
  | succ fuel ih =>
      rw [callTrace]
      have ends {points : List Point}
          (follows : L.Watched w i points fun j =>
            L.Follows j L.tie.Lists (c.run (Vm.call (fuel + 1)) m) (d.run (Vm.call (fuel + 1)) n)) :=
        follows.append conducted fun j follows => failures_watched conducted follows
      refine ends ?_
      rw [Plan.call_eq, Plan.call_eq]
      refine .cons conducted rfl alike fun permits => ?_
      have begins := start_alike conducted.toPaced calls alike fun n => conducted.quiet permits
      refine (course_watched conducted ih (fun _ => request_watched conducted ih)
        begins).bind conducted fun begun alike => ?_
      cases begun with
      | inl lists => exact .nil conducted (.alike (.ok alike lists))
      | inr frames =>
          have layers : L.tie.Layers ⟨_, .forward⟩ ⟨_, .forward⟩ := ⟨frames, rfl⟩
          exact stack_watched conducted ih fuel layers .nil alike

/-- Like sessions of the host end alike. -/
theorem session_watched (level : L.tie.shift = 0) (fuel : Nat) {p q : HostProgram}
    (programs : L.tie.Programs p q) (alike : L.machines i m n)
    : L.Watched w i (p.trace fuel m) fun j =>
        L.Follows j L.tie.Lists ((Plan.program none 0 p).run (Vm.call fuel) m)
          ((Plan.program none 0 q).run (Vm.call fuel) n) := by
  have depths : 0 = 0 + L.tie.shift := by omega
  exact course_watched conducted (call_watched conducted fuel)
    (fun _ => request_watched conducted (call_watched conducted fuel))
    ((program_concur conducted.toRegular .none depths programs).course alike)

end Likeness
end HookMachine
