import HookMachine.Proofs.Likeness.Judgement

/-!
The operations on objects, cells and prototypes by the judgement of agreement: in like machines,
on like arguments, they do like things.
-/

namespace HookMachine.Likeness

variable {ι : Type} {L : Likeness ι} {i : ι} {a b : TableRef} {c d : ClosureRef} {v w k l : Value}

open Vm

theorem refuse_agree {α β : Type} {related : α → β → Prop} (refusal : Refusal)
    : L.Agree i (Action.refuse refusal : Action α) (Action.refuse refusal) related :=
  .fail _

theorem checkKey_agree (key : L.tie.Values k l) : L.Agree i (checkKey k) (checkKey l) Eq := by
  cases key with
  | nil => exact .fail _
  | number x =>
      unfold checkKey
      dsimp only
      split
      · exact .fail _
      · exact .pure rfl
  | boolean | string | table | closure | native => exact .pure rfl

theorem found_agree {α β : Type} {related : α → β → Prop} {o : Except Miss α} {p : Except Miss β}
    (matched : Matched related o p)
    : L.Agree i (found o) (found p) related := by
  cases matched with
  | ok holds => exact .pure holds
  | error miss => exact .fail _

variable (lawful : L.Lawful)

include lawful

-----------------------------------------------------------------------------------------
-- Looking at the machine
-----------------------------------------------------------------------------------------

theorem table_agree (tied : L.tie.TableRefs a b) : L.Agree i (table a) (table b) L.tie.Tables :=
  .bind .get fun _ _ alike => found_agree ((lawful.reads alike).tables tied)

theorem closure_agree (tied : L.tie.ClosureRefs c d)
    : L.Agree i (closure c) (closure d) L.tie.Closures :=
  .bind .get fun _ _ alike => found_agree ((lawful.reads alike).closures tied)

theorem native_agree {n o : NativeRef} (tied : L.tie.NativeRefs n o)
    : L.Agree i (native n) (native o) L.tie.Natives :=
  .bind .get fun _ _ alike => found_agree ((lawful.reads alike).natives tied)

theorem prototype_agree {p : PrototypeRef} (known : L.tie.prototype p)
    : L.Agree i (prototype p) (prototype p) L.tie.Prototypes :=
  .bind .get fun _ _ alike => .pure ((lawful.reads alike).prototypes known)

theorem readCell_agree {cell : CellRef} (known : L.tie.cell cell)
    : L.Agree i (readCell cell) (readCell cell) L.tie.Values :=
  .bind .get fun _ _ alike => .pure ((lawful.reads alike).cells known)

theorem checkOwner_agree (value : L.tie.Values v w)
    : L.Agree i (checkOwner v) (checkOwner w) Eq := by
  refine .bind .get fun m n alike => ?_
  rw [(lawful.reads alike).owns value]
  split
  · exact .pure rfl
  · exact .fail _

theorem rawGet_agree (tied : L.tie.TableRefs a b) (key : L.tie.Values k l)
    : L.Agree i (rawGet a k) (rawGet b l) L.tie.Values :=
  (table_agree lawful tied).bind fun _ _ alike => .pure (.orNil (alike.get? key))

theorem metatable_agree (value : L.tie.Values v w)
    : L.Agree i (metatable v) (metatable w) (Option.Rel L.tie.TableRefs) := by
  cases value with
  | table tied => exact (table_agree lawful tied).bind fun _ _ alike => .pure alike.metatable
  | nil | boolean | number | string | closure | native => exact .pure .none

theorem functionName_agree (f : L.tie.Values v w)
    : L.Agree i (functionName v) (functionName w) Eq := by
  cases f with
  | closure tied =>
      refine (closure_agree lawful tied).bind fun _ _ alike => ?_
      rw [← alike.prototype]
      exact (prototype_agree lawful alike.known).bind fun _ _ alike => .pure alike.name
  | native tied =>
      exact (native_agree lawful tied).bind fun _ _ alike => .pure (congrArg some alike.name)
  | nil | boolean | number | string | table => exact .pure rfl

-----------------------------------------------------------------------------------------
-- Changing the machine
-----------------------------------------------------------------------------------------

theorem updateTable_agree (tied : L.tie.TableRefs a b) {change change' : Table → Table}
    (changed : ∀ {x y}, L.tie.Tables x y → L.tie.Tables (change x) (change' y))
    : L.Agree i (updateTable a change) (updateTable b change') Eq :=
  (table_agree lawful tied).andThen fun _ _ =>
    .modify fun alike => lawful.modifyTable alike tied changed

theorem updateClosure_agree (tied : L.tie.ClosureRefs c d) {change change' : Closure → Closure}
    (changed : ∀ {c d}, L.tie.Closures c d → L.tie.Closures (change c) (change' d))
    : L.Agree i (updateClosure c change) (updateClosure d change') Eq :=
  (closure_agree lawful tied).andThen fun _ _ =>
    .modify fun alike => lawful.modifyClosure alike tied changed

theorem newTable_agree : L.Agree i newTable newTable L.tie.TableRefs :=
  .modifyGet fun alike => lawful.insertTable alike .empty

theorem newClosure_agree {x y : Closure} (made : L.tie.Closures x y)
    : L.Agree i (newClosure x) (newClosure y) L.tie.ClosureRefs :=
  .modifyGet fun alike => lawful.insertClosure alike made

theorem newNative_agree {n o : Native} (made : L.tie.Natives n o)
    : L.Agree i (newNative n) (newNative o) L.tie.NativeRefs :=
  .modifyGet fun alike => lawful.insertNative alike made

theorem createNative_agree {n o : Native} (made : L.tie.Natives n o)
    : L.Agree i (createNative n) (createNative o) L.tie.NativeRefs :=
  (Agree.forM made.bound fun _ _ value => checkOwner_agree lawful value).andThen fun _ _ =>
    newNative_agree lawful made

theorem newCell_agree (value : L.tie.Values v w)
    : L.Agree i (newCell v) (newCell w) fun x y => x = y ∧ L.tie.cell x := by
  refine .modifyGet fun alike => ?_
  obtain ⟨pushed, known⟩ := lawful.pushCell alike value
  exact ⟨pushed, congrArg CellRef.mk (lawful.reads alike).cellCount, known⟩

theorem writeCell_agree {cell : CellRef} (known : L.tie.cell cell) (value : L.tie.Values v w)
    : L.Agree i (writeCell cell v) (writeCell cell w) Eq :=
  .modify fun alike => lawful.setCell alike known value

theorem addPrototype_agree {p q : Prototype} (alike : L.tie.Assembled p q)
    : L.Agree i (addPrototype p) (addPrototype q) L.tie.PrototypeRefs := by
  refine .modifyGet fun machines => ?_
  obtain ⟨inserted, known⟩ := lawful.insertPrototype machines alike
  exact ⟨inserted, congrArg PrototypeRef.mk (lawful.reads machines).prototypeCount, known⟩

theorem newCells_agree (count : Nat)
    : L.Agree i (newCells count) (newCells count)
        fun xs ys => xs = ys ∧ ∀ cell ∈ xs, L.tie.cell cell := by
  induction count with
  | zero => exact .pure ⟨rfl, by simp⟩
  | succ count ih =>
      refine (newCell_agree lawful .nil).bind fun cell _ ⟨same, known⟩ => ?_
      refine ih.bind fun cells _ ⟨others, known_others⟩ => ?_
      exact .pure ⟨by rw [same, others], List.forall_mem_cons.mpr ⟨known, known_others⟩⟩

theorem instantiate_agree {p : PrototypeRef} (known : L.tie.prototype p) {e f : Option TableRef}
    (environment : Option.Rel L.tie.TableRefs e f)
    : L.Agree i (instantiate p e) (instantiate p f) L.tie.ClosureRefs := by
  refine (prototype_agree lawful known).bind fun _ _ alike => ?_
  rw [alike.upvalues]
  refine (newCells_agree lawful _).bind fun cells _ ⟨same, cells_known⟩ => ?_
  refine .bind .get fun m n machines => ?_
  subst same
  refine newClosure_agree lawful ⟨rfl, known, rfl, by simpa using cells_known, ?_, .none, rfl⟩
  cases environment with
  | some tied => exact tied
  | none => exact (lawful.reads machines).globals

theorem rawSet_agree (tied : L.tie.TableRefs a b) (key : L.tie.Values k l)
    (value : L.tie.Values v w)
    : L.Agree i (rawSet a k v) (rawSet b l w) Eq := by
  refine (checkKey_agree key).andThen fun _ _ => (checkOwner_agree lawful value).andThen fun _ _ => ?_
  refine (table_agree lawful tied).bind fun _ _ alike => ?_
  rw [alike.readOnly]
  split
  · exact .failThen _ _ _
  · exact updateTable_agree lawful tied fun alike => alike.set key value

theorem setMetatable_agree (tied : L.tie.TableRefs a b) {e f : Option TableRef}
    (metatable : Option.Rel L.tie.TableRefs e f)
    : L.Agree i (setMetatable a e) (setMetatable b f) Eq := by
  have attached : L.Agree i (updateTable a fun x => { x with metatable := e })
      (updateTable b fun x => { x with metatable := f }) Eq :=
    updateTable_agree lawful tied fun alike => { alike with metatable }
  cases metatable with
  | none => exact attached
  | some other => exact (table_agree lawful other).andThen fun _ _ => attached

theorem setReadOnly_agree (tied : L.tie.TableRefs a b) (on : Bool)
    : L.Agree i (setReadOnly a on) (setReadOnly b on) Eq :=
  updateTable_agree lawful tied fun alike => { alike with readOnly := rfl }

theorem clone_agree (f : L.tie.Values v w)
    : L.Agree i (clone v) (clone w) (Option.Rel L.tie.Values) := by
  refine (checkOwner_agree lawful f).andThen fun _ _ => ?_
  cases f with
  | closure tied =>
      refine (closure_agree lawful tied).bind fun x y alike => ?_
      have copied : L.tie.Closures { x with redirect := none, marked := false }
          { y with redirect := none, marked := false } :=
        { alike with redirect := .none, marked := rfl }
      exact (newClosure_agree lawful copied).bind fun _ _ made => .pure (.some (.closure made))
  | native tied =>
      refine (native_agree lawful tied).bind fun x y alike => ?_
      have copied : L.tie.Natives { x with marked := false } { y with marked := false } :=
        { alike with marked := rfl }
      exact (newNative_agree lawful copied).bind fun _ _ made => .pure (.some (.native made))
  | nil | boolean | number | string | table => exact .pure .none

theorem setRedirect_agree (tied : L.tie.ClosureRefs c d) {o p : Option Value}
    (target : Option.Rel L.tie.Values o p)
    : L.Agree i (setRedirect c o) (setRedirect d p) Eq := by
  have redirected : L.Agree i (updateClosure c fun x => { x with redirect := o })
      (updateClosure d fun x => { x with redirect := p }) Eq :=
    updateClosure_agree lawful tied fun alike => { alike with redirect := target }
  cases target with
  | none => exact redirected
  | some value => exact (checkOwner_agree lawful value).andThen fun _ _ => redirected

end HookMachine.Likeness
