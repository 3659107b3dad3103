import HookMachine.Proofs.Bounds.Steadiness
import HookMachine.Proofs.Likeness.Objects

/-!
The tie of everything to itself, by which nothing is alike but what is the same, and by which
every function of the host does what it does.
-/

namespace HookMachine

theorem Option.rel_eq {α : Type} : Option.Rel (@Eq α) = Eq := by
  funext o p
  refine propext ⟨fun alike => ?_, fun same => ?_⟩
  · cases alike with
    | some held => rw [held]
    | none => rfl
  · cases o <;> cases same
    · exact .none
    · exact .some rfl

theorem matched_eq {ε α : Type} : Matched (ε := ε) (@Eq α) = Eq := by
  funext o p
  refine propext ⟨fun alike => ?_, fun same => ?_⟩
  · cases alike with
    | ok held => rw [held]
    | error => rfl
  · cases o <;> cases same
    · exact .error _
    · exact .ok rfl

namespace Tie.Whole

variable {t : Tie} (whole : t.Whole)

include whole

theorem tableRefs_eq : t.TableRefs = Eq := by
  funext a b
  exact propext (whole.link.trans ⟨ObjectRef.table.inj, congrArg _⟩)

theorem closureRefs_eq : t.ClosureRefs = Eq := by
  funext a b
  exact propext (whole.link.trans ⟨ObjectRef.closure.inj, congrArg _⟩)

theorem nativeRefs_eq : t.NativeRefs = Eq := by
  funext a b
  exact propext (whole.link.trans ⟨ObjectRef.native.inj, congrArg _⟩)

theorem tables_eq : t.Tables = Eq :=
  funext fun _ => funext fun _ => propext whole.tables

theorem prototypeRefs_eq : t.PrototypeRefs = Eq := by
  funext a b
  exact propext ⟨fun alike => alike.same, fun same => ⟨same, whole.prototype a⟩⟩

theorem guards_eq : t.Guards = Eq := by
  funext g h
  refine propext ⟨fun alike => ?_, fun same => same ▸ ⟨rfl, whole.values.mpr rfl⟩⟩
  cases g
  cases h
  exact congr (congrArg Guard.mk alike.slot) (whole.values.mp alike.value)

theorem owners_eq : t.Owners = Eq := by
  funext o p
  refine propext ⟨fun alike => ?_, fun same => same ▸ ?_⟩
  · cases alike with
    | runtime => rfl
    | script id => rw [whole.values.mp id]
    | module id => rw [whole.values.mp id]
  · cases o with
    | runtime => exact .runtime
    | script id => exact .script (whole.values.mpr rfl)
    | module id => exact .module (whole.values.mpr rfl)

theorem nesteds_eq : t.Nesteds = Eq := by
  funext a b
  refine propext ⟨fun alike => ?_, fun same => same ▸ ?_⟩
  · cases alike with
    | description => rfl
    | closure tied =>
        rw [whole.closureRefs_eq] at tied
        rw [tied]
  · cases a with
    | description info => exact .description info
    | closure ref => exact .closure (by rw [whole.closureRefs_eq])

theorem prototypes_refl (p : Prototype) : t.Prototypes p p where
  name := rfl
  source := rfl
  line := rfl
  code := rfl
  constants := by rw [whole.values_eq, List.forall₂_eq_eq_eq]
  nested := rfl
  known child _ := whole.prototype child
  parameters := rfl
  variadic := rfl
  upvalues := rfl

theorem assembled_eq : t.Assembled = Eq := by
  funext p q
  refine propext ⟨fun alike => ?_, fun same => same ▸ ⟨whole.prototypes_refl p, rfl⟩⟩
  have constants := alike.constants
  rw [whole.values_eq, List.forall₂_eq_eq_eq, Array.toList_inj] at constants
  obtain ⟨⟨name, source, line, code, -, nested, -, parameters, variadic, upvalues⟩, window⟩ := alike
  cases p
  cases q
  simp_all

-----------------------------------------------------------------------------------------
-- Functions of the host
-----------------------------------------------------------------------------------------

/-- Like requests are the same, and so are their answers. -/
theorem requests {r s : Request} {answers : r.Answer → s.Answer → Prop}
    (asked : t.Requests r s answers)
    : ∃ _ : r = s, HEq answers (@Eq r.Answer) := by
  cases asked <;>
    simp_all only [whole.values_eq, whole.lists_eq, whole.tableRefs_eq, whole.closureRefs_eq,
      whole.tables_eq, whole.prototypeRefs_eq, whole.guards_eq, whole.owners_eq, whole.nesteds_eq,
      whole.assembled_eq, whole.link, ObjectRef.table.injEq, ObjectRef.closure.injEq,
      Option.rel_eq, heq_eq_eq, exists_const]

/-- Every request is like itself, but those that enter the machine only where calls lie as deep. -/
theorem requests_refl {r : Request} (level : r.enters = true → t.shift = 0)
    : t.Requests r r Eq := by
  have value (v : Value) : t.Values v v := whole.values.mpr rfl
  have list (xs : List Value) : t.Lists xs xs := by rw [whole.lists_eq]
  have table (ref : TableRef) : t.TableRefs ref ref := whole.link.mpr rfl
  have closure (ref : ClosureRef) : t.ClosureRefs ref ref := whole.link.mpr rfl
  have owner (o : EnvironmentOwner) : t.Owners o o := by rw [whole.owners_eq]
  have metatable (o : Option TableRef) : Option.Rel t.TableRefs o o := by
    rw [whole.tableRefs_eq, Option.rel_eq]
  have target (o : Option Value) : Option.Rel t.Values o o := by
    rw [whole.values_eq, Option.rel_eq]
  have asked : ∃ answers, t.Requests r r answers := by
    cases r with
    | newTable => exact ⟨_, .newTable⟩
    | assemble p => exact ⟨_, .assemble (whole.assembled_eq ▸ rfl)⟩
    | instantiate p e => exact ⟨_, .instantiate (whole.prototype p) (metatable e)⟩
    | load o p => exact ⟨_, .load (owner o) (whole.prototype p)⟩
    | contents ref => exact ⟨_, .contents (table ref)⟩
    | rawGet ref key => exact ⟨_, .rawGet (table ref) (value key)⟩
    | rawSet ref key v => exact ⟨_, .rawSet (table ref) (value key) (value v)⟩
    | metatable v => exact ⟨_, .metatable (value v)⟩
    | setMetatable ref e => exact ⟨_, .setMetatable (table ref) (metatable e)⟩
    | isReadOnly ref => exact ⟨_, .isReadOnly (table ref)⟩
    | setReadOnly ref on => exact ⟨_, .setReadOnly (table ref) on⟩
    | closureEnvironment ref => exact ⟨_, .closureEnvironment (closure ref)⟩
    | upvalueCount ref => exact ⟨_, .upvalueCount (closure ref)⟩
    | functionName f => exact ⟨_, .functionName (value f)⟩
    | clone f => exact ⟨_, .clone (value f)⟩
    | redirect ref o => exact ⟨_, .redirect (closure ref) (target o)⟩
    | checkOwner v => exact ⟨_, .checkOwner (value v)⟩
    | stats => exact ⟨_, .stats whole⟩
    | objects tables => exact ⟨_, .objects whole tables⟩
    | filter kind criteria => exact ⟨_, .filter whole kind criteria⟩
    | call f arguments => exact ⟨_, .call (level rfl) (value f) (list arguments)⟩
    | index object key => exact ⟨_, .index (level rfl) (value object) (value key)⟩
    | assign object key v => exact ⟨_, .assign (level rfl) (value object) (value key) (value v)⟩
    | readShared name => exact ⟨_, .readShared (level rfl) name⟩
    | fire index arguments => exact ⟨_, .fire (level rfl) index (list arguments)⟩
    | fireSignal signal arguments => exact ⟨_, .fireSignal (level rfl) signal (list arguments)⟩
    | retain v => exact ⟨_, .retain (value v)⟩
    | resolve slot => exact ⟨_, .resolve slot⟩
    | retained => exact ⟨_, .retained⟩
    | hold v => exact ⟨_, .hold (value v)⟩
    | letGo guard => exact ⟨_, .letGo ⟨rfl, value _⟩⟩
    | environment o => exact ⟨_, .environment (owner o)⟩
    | hook f g => exact ⟨_, .hook (value f) (value g)⟩
    | unhook f => exact ⟨_, .unhook (value f)⟩
    | hookMetamethod object name f => exact ⟨_, .hookMetamethod (value object) name (value f)⟩
    | unhookMetamethod object name => exact ⟨_, .unhookMetamethod (value object) name⟩
    | isHooked f => exact ⟨_, .isHooked (value f)⟩
    | isOwned f => exact ⟨_, .isOwned (value f)⟩
    | isRuntimeFunction f => exact ⟨_, .isRuntimeFunction (value f)⟩
    | constant f i => exact ⟨_, .constant (value f) i⟩
    | setConstant f i v => exact ⟨_, .setConstant (value f) i (value v)⟩
    | constants f => exact ⟨_, .constants (value f)⟩
    | info f => exact ⟨_, .info (value f)⟩
    | nested f i activate => exact ⟨_, .nested (value f) i activate⟩
    | digest f => exact ⟨_, .digest (value f)⟩
    | wrap f => exact ⟨_, .wrap (value f)⟩
    | connect signal f => exact ⟨_, .connect signal (value f)⟩
    | report name values => exact ⟨_, .report name (list values)⟩
    | _ => exact ⟨_, .plain rfl⟩
  obtain ⟨answers, asked⟩ := asked
  obtain ⟨_, same⟩ := whole.requests asked
  exact eq_of_heq same ▸ asked

/-- A program of the host within bounds is like itself, if the bounds exclude the requests that enter
the machine or calls lie as deep; by induction over it.
-/
theorem programs_of_within {allows : HostFunction → Prop} {asks : Request → Prop}
    (contained : ∀ f, allows f → HostFunction.Within allows asks f)
    (level : ∀ r, asks r → r.enters = true → t.shift = 0) {p : HostProgram}
    (within : p.Within allows asks)
    : t.Programs p p := by
  have next {ε α : Type} {next : Except ε α → HostProgram}
      (rest : ∀ o, t.Programs (next o) (next o)) (o p : Except ε α) (same : Matched Eq o p)
      : t.Programs (next o) (next p) := by
    rw [matched_eq] at same
    exact same ▸ rest o
  induction p with
  | finish results => exact .finish (by rw [whole.lists_eq])
  | fail fault => exact .fail fault
  | call f arguments _ ih =>
      cases within with | call rest
      refine .call (whole.values.mpr rfl) (by rw [whole.lists_eq]) ?_
      rw [whole.lists_eq]
      exact next fun o => ih o (rest o)
  | ask request _ ih =>
      cases within with | ask asked rest
      exact .ask (whole.requests_refl (level request asked)) (next fun o => ih o (rest o))
  | create name body bound _ runs ih =>
      cases within with | create allowed rest
      refine .create name ?_ (by rw [whole.lists_eq]) ?_
      · rw [whole.lists_eq, whole.closureRefs_eq, Option.rel_eq]
        rintro _ _ _ _ rfl rfl
        exact runs _ _ (contained body allowed _ _)
      · rw [whole.nativeRefs_eq]
        exact next fun o => ih o (rest o)

/-- Where calls lie as deep, every program of the host is like itself. -/
theorem programs_refl (level : t.shift = 0) (p : HostProgram) : t.Programs p p :=
  whole.programs_of_within (fun f _ _ _ => HostProgram.within_any (f _ _)) (fun _ _ _ => level)
    p.within_any

/-- Like programs of the host are the same, by induction over their likeness. -/
theorem programs {p q : HostProgram} (alike : t.Programs p q) : p = q := by
  have next {ε α : Type} {next other : Except ε α → HostProgram}
      (rest : ∀ o p, Matched Eq o p → next o = other p)
      : next = other :=
    funext fun o => rest o o (by rw [matched_eq])
  induction alike with
  | finish results => rw [whole.lists.mp results]
  | fail fault => rfl
  | call f arguments _ ih =>
      rw [whole.lists_eq] at ih
      rw [whole.values.mp f, whole.lists.mp arguments, next ih]
  | ask request _ ih =>
      obtain ⟨rfl, same⟩ := whole.requests request
      cases same
      rw [next ih]
  | create name _ kept _ runs ih =>
      rw [whole.closureRefs_eq, whole.lists_eq, Option.rel_eq] at runs
      rw [whole.nativeRefs_eq] at ih
      have body := funext fun caller => funext fun arguments => @runs caller caller arguments _ rfl rfl
      rw [body, whole.lists.mp kept, next ih]

/-- Like functions of the host are the same. -/
theorem hostFunction_eq {f g : HostFunction} (alike : t.HostFunctions f g) : f = g := by
  unfold HostFunctions at alike
  rw [whole.closureRefs_eq, whole.lists_eq, Option.rel_eq] at alike
  exact funext fun caller => funext fun arguments => whole.programs (alike rfl rfl)

/-- A function of the host is like itself if its programs are. -/
theorem hostFunctions_refl {f : HostFunction}
    (programs : ∀ caller arguments, t.Programs (f caller arguments) (f caller arguments))
    : t.HostFunctions f f := by
  unfold HostFunctions
  rw [whole.closureRefs_eq, whole.lists_eq, Option.rel_eq]
  rintro _ _ _ _ rfl rfl
  exact programs _ _

-----------------------------------------------------------------------------------------
-- Objects and registries
-----------------------------------------------------------------------------------------

/-- Like bodies of natives are the same. -/
theorem body_eq {a b : NativeBody} (alike : t.Bodies a b) : a = b := by
  cases alike with
  | script f => rfl
  | method m index owner => rw [ObjectRef.table.inj (whole.recalls.mp owner)]
  | wrapper inner => rw [whole.values.mp inner]
  | host alike => rw [whole.hostFunction_eq alike]

/-- Every body of a native is like itself if the functions of the host are. -/
theorem bodies_refl (a : NativeBody) (functions : ∀ f, a = .host f → t.HostFunctions f f)
    : t.Bodies a a := by
  cases a with
  | script f => exact .script f
  | method m index owner => exact .method m index (whole.recalls.mpr rfl)
  | wrapper inner => exact .wrapper (whole.values.mpr rfl)
  | host f => exact .host (functions f rfl)

/-- Like natives are the same. -/
theorem native_eq {n o : Native} (alike : t.Natives n o) : n = o := by
  obtain ⟨name, body, bound, marked⟩ := alike
  have body := whole.body_eq body
  rw [whole.lists_eq] at bound
  cases n
  cases o
  simp_all

/-- Every native is like itself if the functions of the host are. -/
theorem natives_refl {n : Native} (functions : ∀ f, n.body = .host f → t.HostFunctions f f)
    : t.Natives n n :=
  ⟨rfl, whole.bodies_refl n.body functions, whole.lists.mpr rfl, rfl⟩

theorem closures_eq : t.Closures = Eq := by
  funext c d
  refine propext ⟨fun alike => ?_, fun same => same ▸ ?_⟩
  · obtain ⟨prototype, -, upvalues, -, environment, redirect, marked⟩ := alike
    rw [whole.tableRefs_eq] at environment
    rw [whole.values_eq, Option.rel_eq] at redirect
    cases c
    cases d
    simp_all
  · exact ⟨rfl, whole.prototype _, rfl, fun cell _ => whole.cell cell, whole.link.mpr rfl,
      by rw [whole.values_eq, Option.rel_eq], rfl⟩

theorem hookedClosures_eq : t.HookedClosures = Eq := by
  funext e f
  refine propext ⟨fun ⟨key, target, former, replacement⟩ => ?_, fun same => same ▸ ?_⟩
  · rw [whole.guards_eq] at target former replacement
    rw [whole.closureRefs_eq] at key
    obtain ⟨_, _, _, _⟩ := e
    obtain ⟨_, _, _, _⟩ := f
    simp_all
  · exact ⟨whole.link.mpr rfl, by rw [whole.guards_eq], by rw [whole.guards_eq],
      by rw [whole.guards_eq]⟩

theorem hookedSlots_eq : t.HookedSlots = Eq := by
  funext e f
  refine propext ⟨fun ⟨key, name, previous, former, replacement⟩ => ?_, fun same => same ▸ ?_⟩
  · rw [whole.guards_eq] at previous former replacement
    have key := ObjectRef.table.inj (whole.recalls.mp key)
    obtain ⟨⟨_, _⟩, _, _, _⟩ := e
    obtain ⟨⟨_, _⟩, _, _, _⟩ := f
    simp_all
  · exact ⟨whole.recalls.mpr rfl, rfl, by rw [whole.guards_eq], by rw [whole.guards_eq],
      by rw [whole.guards_eq]⟩

theorem hooks_eq : t.Hooks = Eq := by
  funext r s
  refine propext ⟨fun ⟨functions, metamethods⟩ => ?_, fun same => same ▸ ⟨?_, ?_⟩⟩
  · rw [whole.hookedClosures_eq, List.forall₂_eq_eq_eq] at functions
    rw [whole.hookedSlots_eq, List.forall₂_eq_eq_eq] at metamethods
    cases r
    cases s
    simp_all
  · rw [whole.hookedClosures_eq, List.forall₂_eq_eq_eq]
  · rw [whole.hookedSlots_eq, List.forall₂_eq_eq_eq]

theorem recorded_eq : t.Recorded = Eq := by
  funext e f
  refine propext ⟨fun ⟨id, guard⟩ => ?_, fun same => same ▸ ⟨?_, ?_⟩⟩
  · rw [whole.recalled_eq] at id
    rw [whole.guards_eq] at guard
    exact Prod.ext id guard
  · exact whole.recalled.mpr rfl
  · rw [whole.guards_eq]

theorem environments_eq : t.Environments = Eq := by
  funext c d
  have guard : Option.Rel t.Guards = Eq := by rw [whole.guards_eq, Option.rel_eq]
  have list : List.Forall₂ t.Recorded = Eq := by rw [whole.recorded_eq, List.forall₂_eq_eq_eq]
  refine propext ⟨fun ⟨fallback, shared, scripts, modules⟩ => ?_, fun same => same ▸ ?_⟩
  · rw [guard] at fallback shared
    rw [list] at scripts modules
    cases c
    cases d
    simp_all
  · exact ⟨by rw [guard], by rw [guard], by rw [list], by rw [list]⟩

theorem connections_eq : t.Connections = Eq := by
  have single : t.SingleConnections = Eq := by
    funext c d
    have guard : Option.Rel t.Guards = Eq := by rw [whole.guards_eq, Option.rel_eq]
    refine propext ⟨fun ⟨signal, callback, enabled⟩ => ?_, fun same => same ▸ ⟨rfl, ?_, rfl⟩⟩
    · rw [guard] at callback
      cases c
      cases d
      simp_all
    · rw [guard]
  funext r s
  rw [Connections, single, List.forall₂_eq_eq_eq, Array.toList_inj]

theorem reports_eq : t.Reports = Eq := by
  funext e f
  have list : List.Forall₂ t.Recalled = Eq := by rw [whole.recalled_eq, List.forall₂_eq_eq_eq]
  refine propext ⟨fun ⟨name, values⟩ => ?_, fun same => same ▸ ⟨rfl, by rw [list]⟩⟩
  exact Prod.ext name (list ▸ values)

/-- A machine shows what a machine shows that differs from it in no more than what running code
cannot look at, where its natives are like themselves.
-/
theorem machines {m n : Machine}
    (natives : ∀ {handle x}, m.heap.natives.get handle = .ok x → t.Natives x x)
    (heap : m.heap = n.heap) (cells : m.cells = n.cells) (prototypes : m.prototypes = n.prototypes)
    (globals : m.globals = n.globals)
    (privilegedLevel : m.config.privilegedLevel = n.config.privilegedLevel)
    (activeCalls : m.activeCalls = n.activeCalls) (context : m.context = n.context)
    (alive : m.alive = n.alive) (guards : m.guards = n.guards)
    (environments : m.environments = n.environments) (hooks : m.hooks = n.hooks)
    (connections : m.connections = n.connections) (identities : m.identities = n.identities)
    (reports : m.reports = n.reports)
    : t.Machines m n where
  tables tied := by
    rw [whole.tableRefs_eq] at tied
    rw [whole.tables_eq, matched_eq, heap, tied]
  closures tied := by
    rw [whole.closureRefs_eq] at tied
    rw [whole.closures_eq, matched_eq, heap, tied]
  natives tied := by
    rw [whole.nativeRefs_eq] at tied
    rw [← tied, ← heap]
    rcases found : m.heap.natives.get _ with miss | x
    · exact .error miss
    · exact .ok (natives found)
  slots slot := by rw [whole.values_eq, matched_eq, heap]
  retained := by rw [whole.lists_eq, heap]
  owns alike := by rw [heap, whole.values.mp alike]
  globals := by rw [whole.tableRefs_eq, globals]
  cells _ := by rw [whole.values_eq, cells]
  cellCount := by rw [cells]
  prototypes _ := prototypes ▸ whole.prototypes_refl _
  prototypeCount := by rw [prototypes]
  privilegedLevel := privilegedLevel
  activeCalls := activeCalls
  context := context
  alive := alive
  guards := guards
  environments := by rw [whole.environments_eq, environments]
  hooks := by rw [whole.hooks_eq, hooks]
  connections := by rw [whole.connections_eq, connections]
  identities := identities
  reports := by rw [whole.reports_eq, List.forall₂_eq_eq_eq, reports]
  heap _ := heap

end Tie.Whole
end HookMachine
