import HookMachine.Proofs.Deeds.Surface
import HookMachine.Proofs.Execution.Trace

/-!
Plans by the judgement on scopes: up to the first call and from each answer on a course keeps within a
scope. The scope in which it began matters for the first stretch alone, for what a point of a run
grants is spent before a call comes back.
-/

namespace HookMachine

variable {α β : Type} {s : Scope} {asks : Prop} {m after : Machine}

-----------------------------------------------------------------------------------------
-- What a point grants
-----------------------------------------------------------------------------------------

/-- An instruction that executes in an activation writes into the table at `ref`. -/
inductive Frame.Stores (frame : Frame) (i : Instruction) (m : Machine) : Opcode → TableRef → Prop
  | setTable {key ref} (named : Vm.operand frame i.b m = .ok key m)
    (delivers : m.Delivers key ref Vm.maxChain (frame.read i.a))
    : frame.Stores i m .setTable ref
  | setGlobal {key ref} (named : Vm.constant frame i.bx m = .ok key m)
    (delivers : m.Delivers key ref Vm.maxChain (.table frame.environment))
    : frame.Stores i m .setGlobal ref
  | setList {ref} (target : frame.read i.a = .table ref) : frame.Stores i m .setList ref

/-- Nothing is called or asked for at such a point. -/
def Mark.still : Mark → Bool
  | .called _ | .executes .. | .asks _ => false
  | .failed _ | .answered .. | .entered | .left => true

/-- The machine in which the calling context holds a level. -/
def Machine.leveled (m : Machine) (level : Int) : Machine :=
  { m with identities := m.identities.record m.context level.toNat }

/-- The machine in which a course first calls or asks for anything, or ends. -/
def Course.head : Course α → Machine
  | .ends outcome => outcome.last
  | .calls _ now _ | .asks _ now _ => now

/-- The machine that an errand first enters, or in which it ends. -/
def Errand.head : Errand α → Machine
  | .ends outcome => outcome.last
  | .enters _ now _ => now

namespace Point

/-- A native is called at a point, and within the limits of nesting. -/
def Passes (point : Point) (n : Native) (arguments : List Value) : Prop :=
  match point.mark with
  | .called call =>
      call.depth ≤ point.machine.config.limits.callDepth ∧ point.machine.Reaches call.f n
        ∧ call.arguments = arguments
  | .executes frame i =>
      (i.operation? = some .call ∨ i.operation? = some .tailCall)
        ∧ frame.depth + 1 ≤ point.machine.config.limits.callDepth
        ∧ point.machine.Reaches (frame.read i.a) n ∧ frame.span (i.a + 1) i.b = arguments
  | _ => False

/-- A function of scripts runs at a point. -/
structure Performs (point : Point) (f : ScriptFunction) (arguments : List Value) : Prop where
  alive : point.machine.alive = true
  passes : ∃ n, n.body = .script f ∧ point.Passes n arguments

/-- A function of the host runs at a point. -/
def Hosts (point : Point) : Prop :=
  ∃ n f arguments, n.body = .host f ∧ point.Passes n arguments

/-- What may be done from a point on, up to the next. -/
inductive Grants (point : Point) (deed : Deed) : Prop
  | performs {f arguments} (performs : point.Performs f arguments)
    (grants : f.Grants point.machine arguments deed)
  | asks {request} (asked : point.mark = .asks request)
    (grants : request.Grants point.machine deed)
  | stores {frame i op ref} (executes : point.mark = .executes frame i)
    (operation : i.operation? = some op) (stores : frame.Stores i point.machine op ref)
    (writes : deed = .write ref)
  /-- What is done within an entry is what was asked for before. -/
  | enters {ref} (entered : point.mark = .entered) (writes : deed = .write ref)

/-- The calling context is given a level at a point. -/
inductive Sets (point : Point) (level : Int) : Prop
  | performs {arguments} (performs : point.Performs .setIdentity arguments)
    (given : Script.integer arguments 0 "identity level" point.machine = .ok level point.machine)
    (least : 0 ≤ level) (most : level ≤ maxLevel)
  | asks (asked : point.mark = .asks (.setLevel level)) (least : 0 ≤ level)
    (most : level ≤ maxLevel)

/-- What a point sets out with: its machine, with a level set if it sets one. -/
inductive Outset (point : Point) : Machine → Prop
  | plain (unset : ∀ level, ¬point.Sets level) : point.Outset point.machine
  | set {level} (sets : point.Sets level) : point.Outset (point.machine.leveled level)

/-- What is allowed from a point on, up to the next. -/
def scope (point : Point) : Scope where
  origin := point.machine
  allows := point.Grants

/-- What is done at a point comes to this machine before anything is called, asked for or entered. -/
def Heads (point : Point) (first : Machine) : Prop :=
  match point.mark with
  | .called call => (Plan.start call point.machine).head = first
  | .executes frame i =>
      ∀ resume callers, (Plan.advance ⟨frame, resume⟩ callers i point.machine).head = first
  | .asks request => (request.errand point.machine).head = first
  | _ => False

/-- What is done at a point may come to this machine before anything is called, asked for or entered.
What is done where an entry begins is to assign a field, if it is anything.
-/
def Does (point : Point) (first : Machine) : Prop :=
  match point.mark with
  | .called call => first = (Plan.start call point.machine).head
  | .executes frame i =>
      ∃ resume callers, first = (Plan.advance ⟨frame, resume⟩ callers i point.machine).head
  | .asks request => first = (request.errand point.machine).head
  | .entered =>
      first = point.machine
        ∨ ∃ object key value, first = (Plan.assign object key value 0 point.machine).head
  | .failed _ | .answered .. | .left => first = point.machine

/-- What the machine of a point becomes within what the point grants. -/
def Comes (point : Point) (m : Machine) : Prop :=
  ∃ outset, point.Outset outset ∧ point.scope.Leads outset m

/-- What the machine of a point becomes up to the next. -/
structure Goes (point : Point) (m : Machine) : Prop where
  comes : point.Comes m
  does : ∃ first, point.Does first ∧ first.Near m

/-- What the machine of a point is at the next: a collection may have run instead. -/
def Moves (point : Point) (m : Machine) : Prop :=
  point.Goes m ∨ (point.mark = .asks .collect ∧ m = point.machine.collect.2)

variable {point : Point}

theorem not_passes_of_still (still : point.mark.still = true) (n : Native)
    (arguments : List Value)
    : ¬point.Passes n arguments := by
  unfold Passes
  cases mark : point.mark with
  | called | executes | asks => simp [mark, Mark.still] at still
  | failed | answered | entered | left => exact id

theorem not_grants_of_still (still : point.mark.still = true) {deed : Deed}
    (other : ∀ ref, deed ≠ .write ref)
    : ¬point.Grants deed := by
  intro grants
  cases grants with
  | performs performs =>
      obtain ⟨n, -, passes⟩ := performs.passes
      exact not_passes_of_still still n _ passes
  | asks asked =>
      rw [asked] at still
      cases still
  | stores _ _ _ writes | enters _ writes => exact other _ writes

theorem not_sets_of_still (still : point.mark.still = true) (level : Int)
    : ¬point.Sets level := by
  intro sets
  cases sets with
  | performs performs =>
      obtain ⟨n, -, passes⟩ := performs.passes
      exact not_passes_of_still still n _ passes
  | asks asked =>
      rw [asked] at still
      cases still

/-- What a request grants is all that is granted where it is made. -/
theorem Grants.of_asks {request : Request} {deed : Deed}
    (grants : Point.Grants ⟨.asks request, m⟩ deed)
    : request.Grants m deed := by
  cases grants with
  | performs performs =>
      obtain ⟨n, -, passes⟩ := performs.passes
      exact passes.elim
  | asks asked grants =>
      cases asked
      exact grants
  | stores executes => cases executes
  | enters entered => cases entered

/-- A request that sets a level asks for that. -/
theorem Sets.of_asks {request : Request} {level : Int} (sets : Point.Sets ⟨.asks request, m⟩ level)
    : request = .setLevel level ∧ 0 ≤ level ∧ level ≤ maxLevel := by
  cases sets with
  | performs performs =>
      obtain ⟨n, -, passes⟩ := performs.passes
      exact passes.elim
  | asks asked least most =>
      cases asked
      exact ⟨rfl, least, most⟩

theorem does_of_still (still : point.mark.still = true) : point.Does point.machine := by
  unfold Does
  cases mark : point.mark with
  | called | executes | asks => simp [mark, Mark.still] at still
  | entered => exact .inl rfl
  | failed | answered | left => rfl

/-- Where nothing is called or asked for the machine stays as it is. -/
theorem Goes.refl (still : point.mark.still = true) : point.Goes point.machine :=
  ⟨⟨point.machine, .plain (not_sets_of_still still), .refl⟩,
    ⟨point.machine, does_of_still still, .refl _⟩⟩

/-- Where it is known what is done at a point little else is done up to the next. -/
theorem Goes.heads (goes : point.Goes m) (first : Machine) (heads : point.Heads first)
    : first.Near m := by
  obtain ⟨done, does, near⟩ := goes.does
  obtain ⟨mark, now⟩ := point
  cases mark with
  | called call => exact heads ▸ does ▸ near
  | executes frame i =>
      obtain ⟨resume, callers, does⟩ := does
      exact heads resume callers ▸ does ▸ near
  | asks request => exact heads ▸ does ▸ near
  | failed | answered | entered | left => exact heads.elim

theorem Comes.trans (comes : point.Comes m) (leads : point.scope.Leads m after)
    : point.Comes after := by
  obtain ⟨outset, set, first⟩ := comes
  exact ⟨outset, set, first.trans leads⟩

theorem Goes.near (goes : point.Goes m) (near : m.Near after) : point.Goes after := by
  obtain ⟨first, does, also⟩ := goes.does
  exact ⟨goes.comes.trans (.single (.beside near.beside)), ⟨first, does, also.trans near⟩⟩

end Point

-----------------------------------------------------------------------------------------
-- What points tell
-----------------------------------------------------------------------------------------

/-- The native that a call of `f` comes down to. -/
def Machine.reaches? (m : Machine) (f : Value) : Option Native :=
  match Vm.resolve f m with
  | .ok (.native ref) after => (after.heap.natives.get ref.handle).toOption
  | _ => none

theorem Machine.reaches?_eq_some {f : Value} {n : Native}
    : m.reaches? f = some n ↔ m.Reaches f n := by
  unfold reaches? Reaches
  constructor
  · intro reached
    split at reached
    · rename_i ref after resolved
      refine ⟨ref, after, resolved, ?_⟩
      cases found : after.heap.natives.get ref.handle with
      | ok held =>
          rw [found] at reached
          cases reached
          rfl
      | error miss =>
          rw [found] at reached
          cases reached
    · cases reached
  · intro ⟨ref, after, resolved, found⟩
    rw [resolved]
    dsimp only
    rw [found]
    rfl

namespace Point

variable {point : Point}

/-- The native that is called at a point within the limits of nesting, and its arguments. -/
def passes? (point : Point) : Option (Native × List Value) :=
  match point.mark with
  | .called call =>
      if call.depth ≤ point.machine.config.limits.callDepth then
        (point.machine.reaches? call.f).map (·, call.arguments)
      else
        none
  | .executes frame i =>
      if (i.operation? = some .call ∨ i.operation? = some .tailCall)
          ∧ frame.depth + 1 ≤ point.machine.config.limits.callDepth then
        (point.machine.reaches? (frame.read i.a)).map (·, frame.span (i.a + 1) i.b)
      else
        none
  | _ => none

theorem passes?_eq_some {n : Native} {arguments : List Value}
    : point.passes? = some (n, arguments) ↔ point.Passes n arguments := by
  unfold passes? Passes
  cases point.mark with
  | called call =>
      dsimp only
      split
      · rename_i within
        simp [within, Machine.reaches?_eq_some]
      · rename_i deep
        simp [deep]
  | executes frame i =>
      dsimp only
      split
      · rename_i within
        simp [within.1, within.2, Machine.reaches?_eq_some]
      · rename_i apart
        simp only [reduceCtorEq, false_iff]
        exact fun passes => apart ⟨passes.1, passes.2.1⟩
  | _ => simp

/-- What a point tells by the native that is called there, if the runtime is alive, or by the request that
is made.
-/
def tells? (point : Point) (native : NativeBody → List Value → Option α)
    (request : Request → Option α)
    : Option α :=
  match point.mark with
  | .asks asked => request asked
  | _ =>
      if point.machine.alive then
        point.passes?.bind fun (n, arguments) => native n.body arguments
      else
        none

variable {native : NativeBody → List Value → Option α} {request : Request → Option α}

theorem tells?_of_passes (unasked : ∀ request, point.mark ≠ .asks request) {n : Native}
    {arguments : List Value} (passes : point.Passes n arguments)
    : point.tells? native request
      = if point.machine.alive then native n.body arguments else none := by
  unfold tells?
  rw [passes?_eq_some.mpr passes]
  split
  · rename_i asked mark
    exact absurd mark (unasked asked)
  · rfl

/-- What a point tells is told by a request, or by a native of a runtime that is alive. -/
theorem of_tells? {told : α} (tells : point.tells? native request = some told)
    : (∃ asked, point.mark = .asks asked ∧ request asked = some told)
      ∨ (∀ asked, point.mark ≠ .asks asked) ∧ point.machine.alive = true
        ∧ ∃ n arguments, point.Passes n arguments ∧ native n.body arguments = some told := by
  unfold tells? at tells
  split at tells
  · exact .inl ⟨_, ‹_›, tells⟩
  · rename_i unasked
    split at tells
    · rename_i alive
      obtain ⟨⟨n, arguments⟩, passed, tells⟩ := Option.bind_eq_some_iff.mp tells
      exact .inr ⟨unasked, alive, n, arguments, passes?_eq_some.mp passed, tells⟩
    · cases tells

theorem tells?_of_apart (unasked : ∀ request, point.mark ≠ .asks request)
    (apart : ∀ n arguments, ¬point.Passes n arguments)
    : point.tells? native request = none := by
  have none : point.passes? = none := by
    cases found : point.passes? with
    | none => rfl
    | some passed => exact absurd (passes?_eq_some.mp found) (apart _ _)
  unfold tells?
  rw [none]
  split
  · rename_i asked mark
    exact absurd mark (unasked asked)
  · simp

end Point

-----------------------------------------------------------------------------------------
-- Courses
-----------------------------------------------------------------------------------------

/-- Nothing is done but to count and to add natives. A course makes requests only if it `asks`. -/
def Course.Quiet (asks : Prop) : Course α → Machine → Prop
  | .ends outcome, m => m.Near outcome.last
  | .calls _ now next, m => m.Near now ∧ ∀ results after, (next results after).Quiet asks after
  | .asks _ now next, m =>
      asks ∧ m.Near now ∧ ∀ reply after, (next reply after).Quiet asks after

/-- Up to its first call or request a course keeps within a scope, and from each answer on it is
quiet.
-/
def Course.Keeps (asks : Prop) (s : Scope) : Course α → Machine → Prop
  | .ends outcome, m => s.Kept m (fun _ _ => True) outcome
  | .calls _ now next, m => s.Leads m now ∧ ∀ results after, (next results after).Quiet asks after
  | .asks _ now next, m =>
      asks ∧ s.Leads m now ∧ ∀ reply after, (next reply after).Quiet asks after

/-- A plan does nothing but to count and to add natives. -/
structure Plan.Quiet (asks : Prop) (plan : Plan α) : Prop where
  course : ∀ m, (plan m).Quiet asks m

/-- A plan needs no deed. -/
structure Plan.Plain (asks : Prop) (plan : Plan α) : Prop where
  course : ∀ (s : Scope) m, s.Precedes m → (plan m).Keeps asks s m

/-- A failure that becomes an answer leaves the machine as it was. -/
theorem Run.last_attempt {ε : Type} (x : Run ε α) (m : Machine)
    : (Run.attempt x m).last = (x m).last := by
  unfold Run.attempt
  rcases x m with ⟨a, after⟩ | ⟨_ | _, after⟩ <;> rfl

theorem Run.last_mapError {ε ε' : Type} (g : ε → ε') (x : Run ε α) (m : Machine)
    : (Run.mapError g x m).last = (x m).last := by
  unfold Run.mapError
  rcases x m with ⟨a, after⟩ | ⟨_ | _, after⟩ <;> rfl

theorem Run.Looks.last {ε : Type} {x : Run ε α} (looks : Looks x) (m : Machine)
    : (x m).last = m := by
  rcases looks.outcome m with ⟨a, ran⟩ | ⟨error, ran⟩ <;> rw [ran] <;> rfl

namespace Course

theorem Quiet.before {course : Course α} (quiet : course.Quiet asks after)
    (near : m.Near after)
    : course.Quiet asks m := by
  cases course with
  | ends outcome => exact near.trans quiet
  | calls call now next => exact ⟨near.trans quiet.1, quiet.2⟩
  | asks request now next => exact ⟨quiet.1, near.trans quiet.2.1, quiet.2.2⟩

/-- What is quiet keeps within any scope. -/
theorem Quiet.keeps {course : Course α} (quiet : course.Quiet asks m)
    : course.Keeps asks s m := by
  have leads {after : Machine} (near : m.Near after) : s.Leads m after :=
    .single (.beside near.beside)
  cases course with
  | ends outcome =>
      cases outcome with
      | ok a after => exact ⟨leads quiet, trivial⟩
      | error halt after => exact leads quiet
  | calls call now next => exact ⟨leads quiet.1, quiet.2⟩
  | asks request now next => exact ⟨quiet.1, leads quiet.2.1, quiet.2.2⟩

/-- By induction over the calls and requests of a course. -/
theorem Quiet.bind {course : Course α} {f : α → Plan β} (quiet : course.Quiet asks m)
    (rest : ∀ a, (f a).Quiet asks)
    : (course.bind f).Quiet asks m := by
  induction course generalizing m with
  | ends outcome =>
      cases outcome with
      | ok a after => exact ((rest a).course after).before quiet
      | error halt after => exact quiet
  | calls call now next ih => exact ⟨quiet.1, fun results after => ih results after (quiet.2 ..)⟩
  | asks request now next ih =>
      exact ⟨quiet.1, quiet.2.1, fun reply after => ih reply after (quiet.2.2 ..)⟩

theorem Keeps.before {course : Course α} (keeps : course.Keeps asks s after)
    (leads : s.Leads m after)
    : course.Keeps asks s m := by
  cases course with
  | ends outcome => exact Scope.Kept.before keeps leads
  | calls call now next => exact ⟨leads.trans keeps.1, keeps.2⟩
  | asks request now next => exact ⟨keeps.1, leads.trans keeps.2.1, keeps.2.2⟩

/-- A quiet course has done nothing yet where it first calls or asks for anything. -/
theorem Quiet.head {course : Course α} (quiet : course.Quiet asks m) : m.Near course.head := by
  cases course with
  | ends outcome => exact quiet
  | calls call now next => exact quiet.1
  | asks request now next => exact quiet.2.1

/-- What becomes of a result changes nothing. -/
theorem head_bind_pure (course : Course α) (f : α → β)
    : (course.bind fun a => (pure (f a) : Plan β)).head = course.head := by
  rcases course with ⟨⟨a, after⟩ | ⟨halt, after⟩⟩ | _ | _ <;> rfl

/-- What goes on quietly keeps within a scope as long as what it goes on from does. -/
theorem Keeps.bind {course : Course α} {f : α → Plan β} (keeps : course.Keeps asks s m)
    (rest : ∀ a, (f a).Quiet asks)
    : (course.bind f).Keeps asks s m := by
  cases course with
  | ends outcome =>
      cases outcome with
      | ok a after => exact Keeps.before ((rest a).course after).keeps keeps.1
      | error halt after => exact keeps
  | calls call now next => exact ⟨keeps.1, fun results after => (keeps.2 ..).bind rest⟩
  | asks request now next =>
      exact ⟨keeps.1, keeps.2.1, fun reply after => (keeps.2.2 ..).bind rest⟩

/-- By induction over the calls and requests of a course. -/
theorem bind_assoc {γ : Type} (course : Course α) (f : α → Plan β) (g : β → Plan γ)
    : (course.bind f).bind g = course.bind fun a m => (f a m).bind g := by
  induction course with
  | ends outcome => cases outcome <;> rfl
  | calls call now next ih =>
      exact congrArg (Course.calls call now) (funext fun results => funext (ih results))
  | asks request now next ih =>
      exact congrArg (Course.asks request now) (funext fun reply => funext (ih reply))

/-- What looks at the machine first goes on in the same machine. -/
theorem Keeps.look {x : Vm α} {f : α → Plan β} (looks : Run.Looks x)
    (rest : ∀ a, x m = .ok a m → (f a m).Keeps asks s m)
    : (((liftM x : Plan α) >>= f) m).Keeps asks s m := by
  change (Course.bind (.ends (x m)) f).Keeps asks s m
  rcases looks.outcome m with ⟨a, ran⟩ | ⟨fault, ran⟩ <;> rw [ran]
  · exact rest a ran
  · exact .refl

end Course

namespace Plan

-----------------------------------------------------------------------------------------
-- Rules
-----------------------------------------------------------------------------------------

namespace Quiet

theorem plain {plan : Plan α} (quiet : plan.Quiet asks) : plan.Plain asks :=
  ⟨fun _ m _ => (quiet.course m).keeps⟩

theorem pure (a : α) : (pure a : Plan α).Quiet asks :=
  ⟨.refl⟩

theorem lift {x : Vm α} (near : ∀ m : Machine, m.Near (x m).last) : (liftM x : Plan α).Quiet asks :=
  ⟨near⟩

theorem fail (fault : Fault) : (liftM (Vm.fail fault : Vm α) : Plan α).Quiet asks :=
  ⟨.refl⟩

theorem andThen {plan : Plan α} {f : α → Plan β} (first : plan.Quiet asks)
    (rest : ∀ a, (f a).Quiet asks)
    : (plan >>= f).Quiet asks :=
  ⟨fun m => (first.course m).bind rest⟩

theorem look {x : Vm α} {f : α → Plan β} (looks : Run.Looks x) (rest : ∀ a, (f a).Quiet asks)
    : ((liftM x : Plan α) >>= f).Quiet asks := by
  refine andThen (lift fun m => ?_) rest
  rw [looks.last]
  exact .refl m

theorem tryCall (f : Value) (arguments : List Value) (caller : Option ClosureRef) (d : Nat)
    : (Plan.tryCall f arguments caller d).Quiet asks :=
  ⟨fun m => ⟨.refl m, fun _ after => .refl after⟩⟩

theorem call (f : Value) (arguments : List Value) (caller : Option ClosureRef) (d : Nat)
    : (Plan.call f arguments caller d).Quiet asks := by
  refine (tryCall f arguments caller d).andThen fun outcome => ?_
  cases outcome with
  | ok results => exact pure results
  | error fault => exact fail fault

theorem ask (asking : asks) (request : Request) : (Plan.ask request).Quiet asks :=
  ⟨fun m => ⟨asking, .refl m, fun _ after => .refl after⟩⟩

end Quiet

namespace Plain

theorem lift {x : Vm α} (keeps : ∀ s : Scope, s.Keeps x) : (liftM x : Plan α).Plain asks :=
  ⟨fun s m precedes => (keeps s).outcome m precedes⟩

theorem andThen {plan : Plan α} {f : α → Plan β} (first : plan.Plain asks)
    (rest : ∀ a, (f a).Quiet asks)
    : (plan >>= f).Plain asks :=
  ⟨fun s m precedes => (first.course s m precedes).bind rest⟩

/-- What looks at the machine first is done in the same machine. -/
theorem look {x : Vm α} {f : α → Plan β} (looks : Run.Looks x) (rest : ∀ a, (f a).Plain asks)
    : ((liftM x : Plan α) >>= f).Plain asks :=
  ⟨fun s m precedes => .look looks fun a _ => (rest a).course s m precedes⟩

/-- A failure keeps what would follow it from being done. -/
theorem failThen (fault : Fault) (f : α → Plan β)
    : ((liftM (Vm.fail fault : Vm α) : Plan α) >>= f).Plain asks :=
  ⟨fun _ _ _ => .refl⟩

end Plain

-----------------------------------------------------------------------------------------
-- Fields, connections and functions of the host
-----------------------------------------------------------------------------------------

variable {d : Nat} {caller : Option ClosureRef}

/-- A chain is read by induction over how many tables it may visit. -/
theorem indexChain_quiet (key : Value) (limit : Nat) (object : Value)
    : (indexChain key d limit object).Quiet asks := by
  induction limit generalizing object with
  | zero => exact .fail _
  | succ limit ih =>
      cases object with
      | table ref =>
          refine .look (Vm.table_looks ref) fun t => ?_
          split
          · exact .pure _
          · refine .look (Vm.handler_looks t _) fun next => ?_
            split
            · exact .pure _
            · split
              · exact .andThen (.call ..) fun _ => .pure _
              · exact ih next
      | _ => exact .fail _

theorem index_quiet (object key : Value) : (index object key d).Quiet asks :=
  indexChain_quiet key Vm.maxChain object

/-- The end of a chain is written only if it is found unprotected. -/
theorem assignChain_keeps (key value : Value) (limit : Nat) (object : Value)
    (allowed : ∀ ref, m.Delivers key ref limit object → s.allows (.write ref))
    : (assignChain key value d limit object m).Keeps asks s m := by
  induction limit generalizing object with
  | zero => exact .refl
  | succ limit ih =>
      cases object with
      | table ref =>
          refine .look (Vm.checkOwner_looks value) fun _ _ => ?_
          refine .look (Vm.table_looks ref) fun t found => ?_
          refine .look (Vm.writeHandler_looks t key) fun next handled => ?_
          have found := Vm.get_of_table found
          by_cases missing : next.isNil = true
          · rw [if_pos missing]
            split
            · exact .refl
            · rename_i writable
              have writable : t.readOnly = false := by simpa using writable
              have direct : next = .nil := by cases next <;> simp_all [Value.isNil]
              have written : s.Change m _ := .written found writable (Table.refills_set key value)
                (.inr (allowed ref (.ends found (direct ▸ handled))))
              exact Vm.updateTable_kept written
          · rw [if_neg missing]
            by_cases called : next.isFunction = true
            · rw [if_pos called]
              have calls : (Plan.call next [.table ref, key, value] none (d + 1)).Quiet asks := .call ..
              exact ((calls.andThen fun _ => .pure _).course m).keeps
            · rw [if_neg called]
              apply ih next
              intro target delivers
              have some : next.isNil = false := by simpa using missing
              have object : next.isFunction = false := by simpa using called
              exact allowed target (.passes found handled some object delivers)
      | _ => exact .refl

theorem assign_keeps (object key value : Value)
    (allowed : ∀ ref, m.Delivers key ref Vm.maxChain object → s.allows (.write ref))
    : (assign object key value d m).Keeps asks s m :=
  .look (Vm.checkKey_looks key) fun _ _ =>
    assignChain_keeps key value Vm.maxChain object allowed

theorem fire_quiet (arguments : List Value) (index : Nat)
    : (fire arguments caller d index).Quiet asks := by
  refine .look .get fun m => ?_
  split
  · exact .pure _
  · exact .andThen (.tryCall ..) fun _ => .pure _

theorem fireAll_quiet (arguments : List Value) (indices : List Nat)
    : (fireAll arguments caller d indices).Quiet asks := by
  induction indices with
  | nil => exact .pure _
  | cons index rest ih =>
      exact (fire_quiet arguments index).andThen fun _ => ih.andThen fun _ => .pure _

theorem fireSignal_quiet (arguments : List Value) (signal : String)
    : (fireSignal arguments caller d signal).Quiet asks :=
  .look .get fun _ => fireAll_quiet arguments _

theorem method_plain (m : ConnectionMethod) (index : Nat) (owner : TableRef)
    (arguments : List Value)
    : (method caller d m index owner arguments).Plain asks := by
  cases m with
  | fire => exact ((fire_quiet _ index).andThen fun _ => .pure _).plain
  | _ => exact .lift fun _ => Script.runMethod_keeps noCall (by decide) index owner arguments

theorem near_createNative (n : Native) (m : Machine) : m.Near (Vm.createNative n m).last := by
  have checks : Run.Looks (n.bound.forM Vm.checkOwner) := .forM Vm.checkOwner_looks n.bound
  rcases checks.outcome m with ⟨a, ran⟩ | ⟨error, ran⟩
  · have made : Vm.createNative n m = Vm.newNative n m := Run.bind_ok ran
    rw [made]
    exact ⟨⟨_, m.activeCalls, m.steps, rfl⟩, fun _ _ held => Arena.get_insert_of_get n held⟩
  · have failed : Vm.createNative n m = .error (.failed error) m := Run.bind_error ran
    rw [failed]
    exact .refl m

/-- By induction over what a function of the host does. -/
theorem program_quiet (asking : asks) (body : HostProgram)
    : (program caller d body).Quiet asks := by
  induction body with
  | finish results => exact .pure results
  | fail fault => exact .fail fault
  | call f arguments next ih => exact .andThen (.tryCall ..) ih
  | ask request next ih => exact .andThen (.ask asking request) ih
  | create name body bound next _ ih =>
      refine .andThen (.lift fun m => ?_) ih
      have made := near_createNative { name, body := .host body, bound } m
      rw [← Run.last_mapError Failure.fault] at made
      rwa [Run.last_mapError, Run.last_attempt]

-----------------------------------------------------------------------------------------
-- Instructions
-----------------------------------------------------------------------------------------

/-- An instruction needs no deed but to write into the table into which it does. -/
theorem execute_keeps (frame : Frame) {op : Opcode} {i : Instruction} (precedes : s.Precedes m)
    (allowed : ∀ ref, frame.Stores i m op ref → s.allows (.write ref))
    : (execute frame op i m).Keeps asks s m := by
  have quiet {plan : Plan Frame} (quiet : plan.Quiet asks) : (plan m).Keeps asks s m :=
    (quiet.course m).keeps
  have lift {x : Vm Frame} (keeps : s.Keeps x)
      : ((liftM x : Plan Frame) m).Keeps asks s m :=
    keeps.outcome m precedes
  cases op with
  | getGlobal =>
      refine .look (Vm.constant_looks frame _) fun key _ => quiet ?_
      exact (index_quiet _ key).andThen fun _ => .pure _
  | setGlobal =>
      refine .look (Vm.constant_looks frame _) fun key named => ?_
      exact (assign_keeps _ key _ fun ref delivers => allowed ref (.setGlobal named delivers)).bind
        fun _ => .pure _
  | getTable =>
      refine .look (Vm.operand_looks frame _) fun key _ => quiet ?_
      exact (index_quiet _ key).andThen fun _ => .pure _
  | setTable =>
      refine .look (Vm.operand_looks frame _) fun key named => ?_
      refine .look (Vm.operand_looks frame _) fun value _ => ?_
      exact (assign_keeps _ key value fun ref delivers => allowed ref (.setTable named delivers)).bind
        fun _ => .pure _
  | self =>
      refine .look (Vm.operand_looks frame _) fun key _ => quiet ?_
      exact (index_quiet _ key).andThen fun _ => .pure _
  | setList =>
      exact lift (Vm.execute_keeps frame (by decide) i fun _ ref target =>
        allowed ref (.setList target))
  | _ => exact lift (Vm.execute_keeps frame (by decide) i fun same => nomatch same)

end Plan

-----------------------------------------------------------------------------------------
-- Courses that points begin
-----------------------------------------------------------------------------------------

/-- What passes the check lies within the limit. -/
theorem Vm.le_of_checkDepth {depth : Nat} (ran : Vm.checkDepth depth m = .ok () after)
    : depth ≤ m.config.limits.callDepth := by
  unfold Vm.checkDepth at ran
  rw [Run.bind_get] at ran
  split at ran
  · cases ran
  · rename_i within
    exact Nat.not_lt.mp within

/-- Following redirects leaves the machine as it is. -/
theorem Vm.resolve_ok {f target : Value} (ran : Vm.resolve f m = .ok target after) : after = m := by
  rcases (Vm.resolve_looks f).outcome m with ⟨_, resolved⟩ | ⟨_, failed⟩
  · exact (EStateM.Result.ok.inj (ran.symm.trans resolved)).2
  · cases ran.symm.trans failed

/-- Where a constant is found plays no part but in where it is missing. -/
theorem Vm.constant_of_past {frame : Frame} {pc k : Nat} {key : Value}
    (found : constant { frame with pc } k m = .ok key after)
    : constant frame k m = .ok key after := by
  unfold constant at found ⊢
  rcases known : prototype frame.prototype m with ⟨p, middle⟩ | ⟨halt, middle⟩
  · rw [Run.bind_ok known] at found ⊢
    cases listed : p.constants[k]? with
    | none =>
        rw [listed] at found
        cases found
    | some value =>
        rw [listed] at found
        exact found
  · cases (Run.bind_error known).symm.trans found

/-- An instruction writes into the same table wherever the activation goes on. -/
theorem Frame.Stores.of_past {frame : Frame} {pc : Nat} {i : Instruction} {op : Opcode}
    {ref : TableRef} (stores : { frame with pc }.Stores i m op ref)
    : frame.Stores i m op ref := by
  cases stores with
  | setTable named delivers =>
      refine .setTable ?_ delivers
      unfold Vm.operand at named ⊢
      split at named
      · rename_i constant
        rw [if_pos constant]
        exact Vm.constant_of_past named
      · rename_i register
        rw [if_neg register]
        exact named
  | setGlobal named delivers => exact .setGlobal (Vm.constant_of_past named) delivers
  | setList target => exact .setList target

namespace Plan

variable {point : Point} {arguments : List Value} {caller : Option ClosureRef} {d : Nat}

section

variable (unset : ∀ level, ¬point.Sets level)

include unset

/-- Where no level is set, setting one is refused. -/
theorem setIdentity_keeps (performs : point.Performs .setIdentity arguments)
    : (script caller d .setIdentity arguments point.machine).Keeps asks point.scope
        point.machine := by
  let given := Script.integer arguments 0 "identity level"
  let set (level : Int) : Action (List Value) := do
    Clearance.setLevel level
    return []
  change Scope.Kept _ _ _ ((given >>= set).toVm point.machine)
  refine Scope.Kept.mapError _ ?_
  have looks : Run.Looks given := Script.integer_looks ..
  rcases looks.outcome point.machine with ⟨level, took⟩ | ⟨error, refused⟩
  · rw [Run.bind_ok took]
    by_cases outside : level < 0 ∨ maxLevel < level
    · have refused : set level point.machine
          = .error (.failed (.refused (.levelOutOfRange level))) point.machine := by
        simp only [set, Clearance.setLevel, if_pos outside]
        rfl
      rw [refused]
      exact .refl
    · rw [not_or, Int.not_lt, Int.not_lt] at outside
      exact absurd (.performs performs took outside.1 outside.2) (unset level)
  · rw [Run.bind_error refused]
    exact .refl

/-- A function of scripts does what the point at which it runs grants. -/
theorem script_keeps {f : ScriptFunction} (performs : point.Performs f arguments)
    : (script caller d f arguments point.machine).Keeps asks point.scope point.machine := by
  have run (quiet : f ≠ .fireSignal) (aside : f ≠ .setIdentity) :=
    Script.run_kept (s := point.scope) noCall caller arguments
      (fun _ grants => .performs performs grants) quiet aside
  cases f with
  | fireSignal =>
      have plain : (script caller d .fireSignal arguments).Plain asks := by
        refine .andThen (.lift fun _ => ?_) fun signal => ?_
        · exact (Script.string_keeps _ _ _).toVm
        · exact (fireSignal_quiet _ signal).andThen fun _ => .pure _
      exact plain.course _ _ point.scope.precedes_origin
  | setIdentity => exact setIdentity_keeps unset performs
  | _ => exact (run (by decide) (by decide)).mapError Failure.toFault

theorem body_keeps {n : Native} (passes : point.Passes n arguments)
    : (body arguments caller d n.body point.machine).Keeps point.Hosts point.scope
        point.machine := by
  have plain {plan : Plan (List Value)} (plain : plan.Plain point.Hosts) :=
    plain.course _ _ point.scope.precedes_origin
  cases runs : n.body with
  | script f =>
      refine .look .get fun m looked => ?_
      cases looked
      split
      · rename_i alive
        exact script_keeps unset ⟨alive, n, runs, passes⟩
      · exact .refl
  | method m index owner =>
      refine plain (.look .get fun now => ?_)
      split
      · exact method_plain m index owner arguments
      · exact .failThen _ _
  | wrapper inner => exact plain (Quiet.call ..).plain
  | host f =>
      exact plain (program_quiet ⟨n, f, arguments, runs, passes⟩ (f caller arguments)).plain

theorem callOther_keeps {target : Value}
    (passes : ∀ ref n, target = .native ref → point.machine.heap.natives.get ref.handle = .ok n
      → point.Passes n arguments)
    : (callOther target arguments caller d point.machine).Keeps point.Hosts point.scope
        point.machine := by
  cases target with
  | native ref =>
      exact .look (Vm.native_looks ref) fun n found =>
        body_keeps unset (passes ref n rfl (Vm.get_of_native found))
  | table ref =>
      refine .look (Vm.metamethod_looks _ _) fun handler _ => ?_
      split
      · exact ((Quiet.call ..).course _).keeps
      · exact .refl
  | _ => exact .refl

end

/-- A call does what the point at which it begins grants. -/
theorem start_keeps {call : Invocation} (unset : ∀ level, ¬Point.Sets ⟨.called call, m⟩ level)
    : (start call m).Keeps (Point.Hosts ⟨.called call, m⟩) (Point.scope ⟨.called call, m⟩) m := by
  have precedes := (Point.scope ⟨.called call, m⟩).precedes_origin
  refine .look (Vm.checkDepth_looks _) fun _ within => ?_
  refine .look (Vm.resolve_looks _) fun target resolved => ?_
  have passes (ref : NativeRef) (n : Native) (same : target = .native ref)
      (found : m.heap.natives.get ref.handle = .ok n)
      : Point.Passes ⟨.called call, m⟩ n call.arguments := by
    subst same
    exact ⟨Vm.le_of_checkDepth within, ⟨ref, m, resolved, found⟩, rfl⟩
  cases target with
  | closure ref => exact .look (Vm.openFrame_looks ..) fun _ _ => ⟨.refl, trivial⟩
  | _ => exact (callOther_keeps unset passes).bind fun _ => .pure _

/-- Calls what an instruction names, and goes on with the results as `resume` says. -/
def invokes (frame : Frame) (i : Instruction) (resume : Resume) (callers : List Layer)
    : Plan (List Value ⊕ (Layer × List Layer)) := do
  Vm.checkDepth (frame.depth + 1)
  match ← Vm.resolve (frame.read i.a) with
  | .closure callee =>
      let callee ← Vm.openFrame callee (frame.span (i.a + 1) i.b) (frame.depth + 1)
      return .inr (⟨callee, resume⟩, callers)
  | target =>
      let results ← callOther target (frame.span (i.a + 1) i.b) (some frame.closure)
        (frame.depth + 1)
      return unwind results resume callers

/-- The activation of a layer past the instruction that executes. -/
def past (top : Layer) : Layer :=
  { top with frame.pc := top.frame.pc + 1 }

theorem advance_of_call {top : Layer} (callers : List Layer) {i : Instruction}
    (calls : i.operation? = some .call ∨ i.operation? = some .tailCall)
    : ∃ resume, advance top callers i = invokes (past top).frame i resume (past top :: callers) := by
  rcases calls with op | op
  · refine ⟨.store i.a i.c, ?_⟩
    unfold advance perform
    rw [op]
    rfl
  · refine ⟨.forward, ?_⟩
    unfold advance perform
    rw [op]
    rfl

/-- What the instruction of a layer comes to: it calls, it executes within the activation, it delivers
results, or it fails.
-/
inductive Advance (top : Layer) (callers : List Layer) (i : Instruction)
    : Plan (List Value ⊕ (Layer × List Layer)) → Prop
  | calls (resume : Resume) (called : i.operation? = some .call ∨ i.operation? = some .tailCall)
    : Advance top callers i (invokes (past top).frame i resume (past top :: callers))
  | executes (op : Opcode) (operation : i.operation? = some op)
    (uncalled : op ≠ .call ∧ op ≠ .tailCall)
    : Advance top callers i (do
        let frame ← execute (past top).frame op i
        return .inr (⟨frame, top.resume⟩, callers))
  | returns (results : List Value) (operation : i.operation? = some .ret)
    : Advance top callers i (pure (unwind results top.resume callers))
  | fails (fault : Fault) (operation : i.operation? = none)
    : Advance top callers i (liftM (Vm.fail fault : Vm _))

theorem advance_as (top : Layer) (callers : List Layer) (i : Instruction)
    : Advance top callers i (advance top callers i) := by
  by_cases called : i.operation? = some .call ∨ i.operation? = some .tailCall
  · obtain ⟨resume, same⟩ := advance_of_call callers called
    exact same ▸ .calls resume called
  rw [not_or] at called
  cases operation : i.operation? with
  | none =>
      unfold advance perform
      rw [operation]
      exact .fails _ operation
  | some op =>
      by_cases returns : op = .ret
      · subst returns
        unfold advance perform
        rw [operation]
        exact .returns _ operation
      · have same : advance top callers i = (do
            let frame ← execute (past top).frame op i
            return .inr (⟨frame, top.resume⟩, callers)) := by
          unfold advance perform
          rw [operation]
          cases op with
          | call => exact absurd operation called.1
          | tailCall => exact absurd operation called.2
          | ret => exact absurd rfl returns
          | _ => exact funext fun m => Course.bind_assoc ..
        rw [same]
        exact .executes op operation ⟨fun is => called.1 (is ▸ operation), fun is => called.2 (is ▸ operation)⟩

/-- An instruction that neither calls nor reaches a metamethod comes to what it does at once. -/
theorem head_advance_of_ends (top : Layer) (callers : List Layer) {i : Instruction} {op : Opcode}
    (operation : i.operation? = some op) (executed : op ∉ [.call, .tailCall, .ret])
    {outcome : EStateM.Result (Halt Fault) Machine Frame}
    (ends : execute (past top).frame op i m = .ends outcome)
    : (advance top callers i m).head = outcome.last := by
  have as := advance_as top callers i
  generalize advance top callers i = plan at as ⊢
  simp only [List.mem_cons, List.not_mem_nil, or_false, not_or] at executed
  cases as with
  | calls resume called =>
      rw [operation, Option.some.injEq, Option.some.injEq] at called
      exact (called.elim executed.1 executed.2.1).elim
  | executes other also =>
      cases operation.symm.trans also
      refine (Course.head_bind_pure ..).trans ?_
      rw [ends]
      rfl
  | returns results also =>
      cases operation.symm.trans also
      exact absurd rfl executed.2.2
  | fails fault also => cases operation.symm.trans also

/-- An instruction does what the point at which it executes grants. -/
theorem advance_keeps {top : Layer} {callers : List Layer} {i : Instruction}
    (unset : ∀ level, ¬Point.Sets ⟨.executes top.frame i, m⟩ level)
    : (advance top callers i m).Keeps (Point.Hosts ⟨.executes top.frame i, m⟩)
        (Point.scope ⟨.executes top.frame i, m⟩) m := by
  have precedes := (Point.scope ⟨.executes top.frame i, m⟩).precedes_origin
  have as := advance_as top callers i
  generalize advance top callers i = plan at as ⊢
  cases as with
  | calls resume calls =>
      refine .look (Vm.checkDepth_looks _) fun _ within => ?_
      refine .look (Vm.resolve_looks _) fun target resolved => ?_
      have passes (ref : NativeRef) (n : Native) (same : target = .native ref)
          (found : m.heap.natives.get ref.handle = .ok n)
          : Point.Passes ⟨.executes top.frame i, m⟩ n (top.frame.span (i.a + 1) i.b) := by
        subst same
        exact ⟨calls, Vm.le_of_checkDepth within, ⟨ref, m, resolved, found⟩, rfl⟩
      cases target with
      | closure ref => exact .look (Vm.openFrame_looks ..) fun _ _ => ⟨.refl, trivial⟩
      | _ => exact (callOther_keeps unset passes).bind fun _ => .pure _
  | executes op operation =>
      refine Course.Keeps.bind ?_ fun _ => .pure _
      exact execute_keeps _ precedes fun ref stores => .stores rfl operation stores.of_past rfl
  | returns results => exact ((Quiet.pure _).course m).keeps
  | fails fault => exact .refl

-----------------------------------------------------------------------------------------
-- Points at which a function of scripts runs
-----------------------------------------------------------------------------------------

theorem bind_of_ok {x : Vm α} {a : α} (ran : x m = .ok a after) (f : α → Plan β)
    : (((liftM x : Plan α) >>= f) : Plan β) m = f a after := by
  change Course.bind (.ends (x m)) f = _
  rw [ran]
  rfl

theorem callOther_of_script {ref : NativeRef} {n : Native} {f : ScriptFunction}
    (alive : m.alive = true) (found : m.heap.natives.get ref.handle = .ok n)
    (runs : n.body = .script f)
    : callOther (.native ref) arguments caller d m = script caller (d + 1) f arguments m := by
  refine (bind_of_ok (Vm.native_of_get found) _).trans ?_
  rw [runs]
  refine (bind_of_ok (x := get) rfl _).trans ?_
  rw [if_pos alive]

/-- A call at which a function of scripts runs is nothing but that. -/
theorem start_of_performs {call : Invocation} {f : ScriptFunction}
    (performs : Point.Performs ⟨.called call, m⟩ f arguments)
    : start call m = (script call.caller (call.depth + 1) f arguments m).bind
        fun results => pure (.inl results) := by
  obtain ⟨alive, n, runs, within, ⟨ref, after, resolved, found⟩, same⟩ := performs
  obtain rfl : m = after := (Vm.resolve_ok resolved).symm
  subst same
  refine (bind_of_ok (Vm.checkDepth_of_le within) _).trans ((bind_of_ok resolved _).trans ?_)
  exact congrArg (Course.bind · _) (callOther_of_script alive found runs)

/-- An instruction at which a function of scripts runs is nothing but that. -/
theorem advance_of_performs (top : Layer) (callers : List Layer) {i : Instruction}
    {f : ScriptFunction} (performs : Point.Performs ⟨.executes top.frame i, m⟩ f arguments)
    : ∃ resume, advance top callers i m
        = (script (some top.frame.closure) (top.frame.depth + 2) f arguments m).bind
            fun results => pure (unwind results resume (past top :: callers)) := by
  obtain ⟨alive, n, runs, calls, within, ⟨ref, after, resolved, found⟩, same⟩ := performs
  obtain rfl : m = after := (Vm.resolve_ok resolved).symm
  subst same
  obtain ⟨resume, same⟩ := advance_of_call callers calls
  rw [same]
  refine ⟨resume, ?_⟩
  refine (bind_of_ok (Vm.checkDepth_of_le within) _).trans ((bind_of_ok resolved _).trans ?_)
  exact congrArg (Course.bind · _) (callOther_of_script alive found runs)

theorem script_of_quiet {f : ScriptFunction} (quiet : f ≠ .fireSignal)
    : script caller d f arguments = (Script.run noCall caller f arguments).toVm := by
  cases f with
  | fireSignal => exact absurd rfl quiet
  | _ => rfl

/-- A level that is given and lies in range is set. -/
theorem script_setIdentity {level : Int}
    (given : Script.integer arguments 0 "identity level" m = .ok level m) (least : 0 ≤ level)
    (most : level ≤ maxLevel)
    : script caller d .setIdentity arguments m = .ends (.ok [] (m.leveled level)) := by
  let set (level : Int) : Action (List Value) := do
    Clearance.setLevel level
    return []
  have done : set level m = .ok [] (m.leveled level) := by
    have inside : ¬(level < 0 ∨ maxLevel < level) :=
      not_or.mpr ⟨Int.not_lt.mpr least, Int.not_lt.mpr most⟩
    simp only [set, Clearance.setLevel, if_neg inside]
    rfl
  change Course.ends (Run.mapError _ (Script.integer _ _ _ >>= set) m) = _
  unfold Run.mapError
  rw [Run.bind_ok given, done]

theorem start_sets {call : Invocation} {level : Int}
    (sets : Point.Sets ⟨.called call, m⟩ level)
    : start call m = .ends (.ok (.inl []) (m.leveled level)) := by
  cases sets with
  | performs performs given least most =>
      rw [start_of_performs performs, script_setIdentity given least most]
      rfl
  | asks asked => cases asked

theorem advance_sets (top : Layer) (callers : List Layer) {i : Instruction} {level : Int}
    (sets : Point.Sets ⟨.executes top.frame i, m⟩ level)
    : ∃ flow, advance top callers i m = .ends (.ok flow (m.leveled level)) := by
  cases sets with
  | performs performs given least most =>
      obtain ⟨resume, same⟩ := advance_of_performs top callers performs
      rw [same, script_setIdentity given least most]
      exact ⟨_, rfl⟩
  | asks asked => cases asked

end Plan

/-- Where a function of scripts runs nothing else is done up to the next point. -/
theorem Point.Performs.heads {point : Point} {f : ScriptFunction} {arguments : List Value}
    (performs : point.Performs f arguments) (quiet : f ≠ .fireSignal)
    : ∃ caller, point.Heads (Script.run Plan.noCall caller f arguments point.machine).last := by
  have head {γ : Type} (caller : Option ClosureRef) (d : Nat) (g : List Value → γ)
      : ((Plan.script caller d f arguments point.machine).bind fun results =>
            pure (g results)).head
        = (Script.run Plan.noCall caller f arguments point.machine).last := by
    rw [Plan.script_of_quiet quiet]
    change (Course.bind (.ends (Run.mapError _ _ _)) _).head = _
    rw [← Run.last_mapError Failure.toFault]
    generalize Run.mapError Failure.toFault _ point.machine = outcome
    cases outcome <;> rfl
  obtain ⟨mark, m⟩ := point
  cases mark with
  | called call =>
      refine ⟨call.caller, ?_⟩
      change (Plan.start call m).head = _
      rw [Plan.start_of_performs performs]
      exact head ..
  | executes frame i =>
      refine ⟨some frame.closure, fun resume callers => ?_⟩
      obtain ⟨into, same⟩ := Plan.advance_of_performs ⟨frame, resume⟩ callers performs
      rw [same]
      exact head ..
  | failed | asks | answered | entered | left =>
      obtain ⟨-, n, -, passes⟩ := performs
      exact passes.elim

/-- The course that begins at a point keeps within what the point grants, and comes to what is done
there.
-/
structure Point.Begins (point : Point) (course : Course α) : Prop where
  keeps : ∃ outset, point.Outset outset ∧ course.Keeps point.Hosts point.scope outset
  does : point.Does course.head

theorem Plan.start_begins (call : Invocation) (m : Machine)
    : Point.Begins ⟨.called call, m⟩ (start call m) := by
  refine ⟨?_, rfl⟩
  by_cases sets : ∃ level, Point.Sets ⟨.called call, m⟩ level
  · obtain ⟨level, sets⟩ := sets
    refine ⟨_, .set sets, ?_⟩
    rw [start_sets sets]
    exact ⟨.refl, trivial⟩
  · have unset := not_exists.mp sets
    exact ⟨m, .plain unset, start_keeps unset⟩

theorem Plan.advance_begins (top : Layer) (callers : List Layer) (i : Instruction) (m : Machine)
    : Point.Begins ⟨.executes top.frame i, m⟩ (advance top callers i m) := by
  refine ⟨?_, top.resume, callers, rfl⟩
  by_cases sets : ∃ level, Point.Sets ⟨.executes top.frame i, m⟩ level
  · obtain ⟨level, sets⟩ := sets
    obtain ⟨flow, ends⟩ := advance_sets top callers sets
    refine ⟨_, .set sets, ?_⟩
    rw [ends]
    exact ⟨.refl, trivial⟩
  · have unset := not_exists.mp sets
    exact ⟨m, .plain unset, advance_keeps unset⟩

end HookMachine
