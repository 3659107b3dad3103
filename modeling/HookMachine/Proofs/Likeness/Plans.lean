import HookMachine.Proofs.Execution.Trace
import HookMachine.Proofs.Likeness.Instructions
import HookMachine.Proofs.Likeness.Surface

/-!
Courses that go alike: they make like calls and requests in like machines, and whatever like
answers they get, they go on alike. The plan of every operation that reaches back into running
code does so on like arguments.
-/

namespace HookMachine

/-- Calls of like functions with like arguments; the second may lie deeper. -/
structure Tie.Invocations (t : Tie) (c d : Invocation) : Prop where
  f : t.Values c.f d.f
  arguments : t.Lists c.arguments d.arguments
  caller : Option.Rel t.ClosureRefs c.caller d.caller
  depth : d.depth = c.depth + t.shift

namespace Likeness

variable {ι α β γ δ : Type} (L : Likeness ι)

/-- The first run has escaped by a fault, or both have come to like outcomes. -/
inductive Follows (i : ι) (related : α → β → Prop)
    : EStateM.Result (Halt Fault) Machine α → EStateM.Result (Halt Fault) Machine β → Prop
  | escapes {fault : Fault} (escapes : L.escapes fault) (after : Machine)
    (q : EStateM.Result (Halt Fault) Machine β)
    : Follows i related (.error (.failed fault) after) q
  | alike {p : EStateM.Result (Halt Fault) Machine α} {q : EStateM.Result (Halt Fault) Machine β}
    (outcomes : L.Outcomes i related p q)
    : Follows i related p q

/-- Two courses go alike from a state on, unless the first escapes. Only where `asks` holds may
they make requests.
-/
inductive Alike (asks : Prop) (related : α → β → Prop) : ι → Course α → Course β → Prop
  | escapes {i : ι} {fault : Fault} (escapes : L.escapes fault) (after : Machine)
    (other : Course β)
    : Alike asks related i (.ends (.error (.failed fault) after)) other
  | ends {i : ι} {p : EStateM.Result (Halt Fault) Machine α}
    {q : EStateM.Result (Halt Fault) Machine β} (outcomes : L.Outcomes i related p q)
    : Alike asks related i (.ends p) (.ends q)
  | calls {i : ι} {c d : Invocation} (calls : L.tie.Invocations c d) {m n : Machine}
    (machines : L.machines i m n) {next : Except Fault (List Value) → Plan α}
    {next' : Except Fault (List Value) → Plan β}
    (rest : ∀ {j o p m n}, Matched L.tie.Lists o p → L.machines j m n
      → Alike asks related j (next o m) (next' p n))
    : Alike asks related i (.calls c m next) (.calls d n next')
  | asks {i : ι} (allowed : asks) {r s : Request} {answers : r.Answer → s.Answer → Prop}
    (requests : L.tie.Requests r s answers) {m n : Machine} (machines : L.machines i m n)
    {next : Except Failure r.Answer → Plan α} {next' : Except Failure s.Answer → Plan β}
    (rest : ∀ {j o p m n}, Matched answers o p → L.machines j m n
      → Alike asks related j (next o m) (next' p n))
    : Alike asks related i (.asks r m next) (.asks s n next')

/-- Two plans whose courses go alike in like machines. -/
structure Concur (asks : Prop) (p : Plan α) (q : Plan β) (related : α → β → Prop) : Prop where
  course {i m n} : L.machines i m n → L.Alike asks related i (p m) (q n)

variable {L} {i : ι} {asks : Prop} {related : α → β → Prop} {last : γ → δ → Prop}

-----------------------------------------------------------------------------------------
-- Outcomes
-----------------------------------------------------------------------------------------

namespace Follows

theorem bind {x : Vm α} {y : Vm β} {f : α → Vm γ} {g : β → Vm δ} {m n : Machine}
    (first : L.Follows i related (x m) (y n))
    (rest : ∀ {a b m n}, related a b → L.machines i m n → L.Follows i last (f a m) (g b n))
    : L.Follows i last ((x >>= f) m) ((y >>= g) n) := by
  change L.Follows i last (EStateM.bind x f m) (EStateM.bind y g n)
  unfold EStateM.bind
  generalize x m = p at *
  generalize y n = q at *
  cases first with
  | escapes escapes after => exact .escapes escapes after _
  | alike outcomes =>
      cases outcomes with
      | ok alike holds => exact rest holds alike
      | error error alike => exact .alike (.error error alike)

theorem of_agree {x : Vm α} {y : Vm β} (agree : L.Agree i x y related) {m n : Machine}
    (alike : L.machines i m n)
    : L.Follows i related (x m) (y n) :=
  .alike (agree.outcome alike)

end Follows

-----------------------------------------------------------------------------------------
-- Courses
-----------------------------------------------------------------------------------------

namespace Alike

/-- Like courses that go on alike where they end with results, by induction over how they are
alike.
-/
theorem bind {c : Course α} {d : Course β} {f : α → Plan γ} {g : β → Plan δ}
    (first : L.Alike asks related i c d)
    (rest : ∀ {j a b m n}, related a b → L.machines j m n
      → L.Alike asks last j (f a m) (g b n))
    : L.Alike asks last i (c.bind f) (d.bind g) := by
  induction first with
  | escapes escapes after => exact .escapes escapes after _
  | ends outcomes =>
      cases outcomes with
      | ok alike holds => exact rest holds alike
      | error error alike => exact .ends (.error error alike)
  | calls calls machines _ ih => exact .calls calls machines ih
  | asks allowed requests machines _ ih => exact .asks allowed requests machines ih

/-- An operation that makes no call comes first; what follows may know how it came about. -/
theorem first {x : Vm α} {y : Vm β} {f : α → Plan γ} {g : β → Plan δ} {m n : Machine}
    (follows : L.Follows i related (x m) (y n))
    (rest : ∀ {a b after other}, x m = .ok a after → related a b → L.machines i after other
      → L.Alike asks last i (f a after) (g b other))
    : L.Alike asks last i (((liftM x : Plan α) >>= f) m) (((liftM y : Plan β) >>= g) n) := by
  change L.Alike asks last i ((Course.ends (x m)).bind f) ((Course.ends (y n)).bind g)
  generalize x m = p at *
  generalize y n = q at *
  cases follows with
  | escapes escapes after => exact .escapes escapes after _
  | alike outcomes =>
      cases outcomes with
      | ok alike holds => exact rest rfl holds alike
      | error error alike => exact .ends (.error error alike)

end Alike

-----------------------------------------------------------------------------------------
-- Plans
-----------------------------------------------------------------------------------------

namespace Concur

theorem pure {a : α} {b : β} (holds : related a b)
    : L.Concur asks (pure a : Plan α) (pure b) related :=
  ⟨fun alike => .ends (.ok alike holds)⟩

theorem lift {x : Vm α} {y : Vm β} (agree : ∀ {i}, L.Agree i x y related)
    : L.Concur asks (liftM x : Plan α) (liftM y) related :=
  ⟨fun alike => .ends (agree.outcome alike)⟩

theorem fail (fault : Fault)
    : L.Concur asks (liftM (Vm.fail fault : Vm α) : Plan α) (liftM (Vm.fail fault : Vm β))
        related :=
  .lift (.fail _)

theorem bind {p : Plan α} {q : Plan β} {f : α → Plan γ} {g : β → Plan δ}
    (first : L.Concur asks p q related)
    (rest : ∀ a b, related a b → L.Concur asks (f a) (g b) last)
    : L.Concur asks (p >>= f) (q >>= g) last :=
  ⟨fun alike => (first.course alike).bind fun holds alike => (rest _ _ holds).course alike⟩

/-- A failure keeps what would follow it from being done. -/
theorem failThen (fault : Fault) (f : α → Plan γ) (g : β → Plan δ)
    : L.Concur asks ((liftM (Vm.fail fault : Vm α) : Plan α) >>= f)
        ((liftM (Vm.fail fault : Vm β) : Plan β) >>= g) last :=
  ⟨fun alike => .ends (.error _ alike)⟩

theorem andThen {p : Plan α} {q : Plan β} {f : α → Plan γ} {g : β → Plan δ}
    (first : L.Concur asks p q related) (rest : ∀ a b, L.Concur asks (f a) (g b) last)
    : L.Concur asks (p >>= f) (q >>= g) last :=
  first.bind fun a b _ => rest a b

/-- Plans that look at the machine first. -/
theorem get {f : Machine → Plan γ} {g : Machine → Plan δ}
    (rest : ∀ {i m n}, L.machines i m n → L.Concur asks (f m) (g n) last)
    : L.Concur asks ((liftM (get : Vm Machine) : Plan Machine) >>= f)
        ((liftM (get : Vm Machine) : Plan Machine) >>= g) last :=
  ⟨fun alike => (rest alike).course alike⟩

theorem tryCall {v w : Value} (f : L.tie.Values v w) {xs ys : List Value}
    (arguments : L.tie.Lists xs ys) {c d : Option ClosureRef}
    (caller : Option.Rel L.tie.ClosureRefs c d) {depth deeper : Nat}
    (depths : deeper = depth + L.tie.shift)
    : L.Concur asks (Plan.tryCall v xs c depth) (Plan.tryCall w ys d deeper)
        (Matched L.tie.Lists) :=
  ⟨fun alike => .calls ⟨f, arguments, caller, depths⟩ alike fun matched alike =>
    .ends (.ok alike matched)⟩

theorem call {v w : Value} (f : L.tie.Values v w) {xs ys : List Value}
    (arguments : L.tie.Lists xs ys) {c d : Option ClosureRef}
    (caller : Option.Rel L.tie.ClosureRefs c d) {depth deeper : Nat}
    (depths : deeper = depth + L.tie.shift)
    : L.Concur asks (Plan.call v xs c depth) (Plan.call w ys d deeper) L.tie.Lists := by
  refine (tryCall f arguments caller depths).bind fun _ _ outcome => ?_
  cases outcome with
  | ok results => exact .pure results
  | error fault => exact .fail fault

theorem ask (allowed : asks) {r s : Request} {answers : r.Answer → s.Answer → Prop}
    (requests : L.tie.Requests r s answers)
    : L.Concur asks (Plan.ask r) (Plan.ask s) (Matched answers) :=
  ⟨fun alike => .asks allowed requests alike fun matched alike => .ends (.ok alike matched)⟩

end Concur

-----------------------------------------------------------------------------------------
-- Fields
-----------------------------------------------------------------------------------------

section

variable (lawful : L.Lawful) {depth deeper : Nat} (depths : deeper = depth + L.tie.shift)

include lawful depths

/-- Reading a field goes alike, by induction over the tables that may still be visited. -/
theorem indexChain_concur {k l : Value} (key : L.tie.Values k l) (limit : Nat) {v w : Value}
    (object : L.tie.Values v w)
    : L.Concur asks (Plan.indexChain k depth limit v) (Plan.indexChain l deeper limit w)
        L.tie.Values := by
  induction limit generalizing v w with
  | zero => exact .fail _
  | succ limit ih =>
      cases object with
      | nil | boolean | number | string | closure | native => exact .fail _
      | table tied =>
          refine (Concur.lift (table_agree lawful tied)).bind fun x y alike => ?_
          have held := alike.get? key
          generalize x.get? k = o at *
          generalize y.get? l = p at *
          cases held with
          | some value => exact .pure value
          | none =>
              refine (Concur.lift (handler_agree lawful alike _)).bind fun _ _ next => ?_
              rw [next.isNil, next.isFunction]
              split
              · exact .pure .nil
              · split
                · exact (Concur.call next (.cons (.table tied) (.cons key .nil)) .none
                    (by omega)).bind fun _ _ results => .pure results.headD
                · exact ih next

theorem index_concur {v w k l : Value} (object : L.tie.Values v w) (key : L.tie.Values k l)
    : L.Concur asks (Plan.index v k depth) (Plan.index w l deeper) L.tie.Values :=
  indexChain_concur lawful depths key _ object

/-- Writing a field goes alike, by induction over the tables that may still be visited. -/
theorem assignChain_concur {k l x y : Value} (key : L.tie.Values k l) (value : L.tie.Values x y)
    (limit : Nat) {v w : Value} (object : L.tie.Values v w)
    : L.Concur asks (Plan.assignChain k x depth limit v) (Plan.assignChain l y deeper limit w)
        Eq := by
  induction limit generalizing v w with
  | zero => exact .fail _
  | succ limit ih =>
      cases object with
      | nil | boolean | number | string | closure | native => exact .fail _
      | table tied =>
          refine (Concur.lift (checkOwner_agree lawful value)).andThen fun _ _ => ?_
          refine (Concur.lift (table_agree lawful tied)).bind fun _ _ alike => ?_
          refine (Concur.lift (writeHandler_agree lawful alike key)).bind fun _ _ next => ?_
          rw [next.isNil, next.isFunction, alike.readOnly]
          have written : L.Concur asks
              (liftM (Vm.updateTable _ (·.set k x)) : Plan Unit)
              (liftM (Vm.updateTable _ (·.set l y)) : Plan Unit) Eq :=
            .lift (updateTable_agree lawful tied fun alike => alike.set key value)
          split
          · split
            · exact .failThen _ _ _
            · exact written
          · split
            · exact (Concur.call next
                (.cons (.table tied) (.cons key (.cons value .nil))) .none (by omega)).andThen
                  fun _ _ => .pure rfl
            · exact ih next

theorem assign_concur {v w k l x y : Value} (object : L.tie.Values v w) (key : L.tie.Values k l)
    (value : L.tie.Values x y)
    : L.Concur asks (Plan.assign v k x depth) (Plan.assign w l y deeper) Eq :=
  (Concur.lift (checkKey_agree key)).andThen fun _ _ =>
    assignChain_concur lawful depths key value _ object

end

end Likeness
end HookMachine
