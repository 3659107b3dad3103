import HookMachine.Proofs.Sharing.Constants

/-!
What a digest tells of a function. The bytes that stand for the behaviour of a prototype have no mark
where the source ends, so the end of a source can be taken for a line, counts and instructions, and the
other way round. Apart from that the bytes tell everything they are made from.
-/

namespace HookMachine

-----------------------------------------------------------------------------------------
-- Text and words as bytes
-----------------------------------------------------------------------------------------

namespace Text

theorem hexDigit_inj {a b : Nat} (small : a < 16) (other : b < 16) (same : hexDigit a = hexDigit b)
    : a = b := by
  have apart : ∀ x < 16, ∀ y < 16, hexDigit x = hexDigit y → x = y := by decide
  exact apart a small b other same

theorem hex_injective : Function.Injective hex := by
  intro xs ys same
  have digits := String.ofList_injective same
  clear same
  induction xs generalizing ys with
  | nil =>
      cases ys with
      | nil => rfl
      | cons y ys => cases digits
  | cons x xs ih =>
      cases ys with
      | nil => cases digits
      | cons y ys =>
          obtain ⟨high, low, rest⟩ := by simpa using digits
          have upper := hexDigit_inj (by have := x.toNat_lt; omega) (by have := y.toNat_lt; omega) high
          have lower := hexDigit_inj (Nat.mod_lt _ (by decide)) (Nat.mod_lt _ (by decide)) low
          have first : x = y := UInt8.toNat_inj.mp (by omega)
          rw [first, ih rest]

/-- The bytes of an array are listed from any place on. -/
theorem toList_loop_eq (bytes : ByteArray) (i : Nat) (listed : List UInt8)
    : ByteArray.toList.loop bytes i listed = listed.reverse ++ bytes.data.toList.drop i := by
  fun_induction ByteArray.toList.loop bytes i listed with
  | case1 i listed within ih =>
      have here : i < bytes.data.toList.length := within
      rw [ih, List.drop_eq_getElem_cons here]
      simp [ByteArray.get!, within]
  | case2 i listed beyond =>
      rw [List.drop_eq_nil_of_le (Nat.not_lt.mp beyond), List.append_nil]

theorem toUTF8_toList_injective : Function.Injective fun text : String => text.toUTF8.toList := by
  intro s t same
  have bytes (text : String) : text.toUTF8.toList = text.toByteArray.data.toList :=
    toList_loop_eq text.toByteArray 0 []
  simp only [bytes] at same
  exact String.toByteArray_inj.mp (ByteArray.ext (Array.toList_inj.mp same))

end Text

namespace Reflection

theorem littleEndian_injective : Function.Injective littleEndian := by
  intro x y same
  simp only [littleEndian, List.cons.injEq, ← UInt8.toNat_inj, UInt32.toNat_toUInt8,
    UInt32.toNat_shiftRight, Nat.shiftRight_eq_div_pow, UInt32.reduceToNat, Nat.reduceMod,
    Nat.reducePow, and_true] at same
  have bound := x.toNat_lt
  have other := y.toNat_lt
  exact UInt32.toNat_inj.mp (by omega)

/-- Instructions as bytes. -/
def codeBytes (code : List Instruction) : List UInt8 :=
  code.flatMap fun i => littleEndian i.word

@[simp]
theorem codeBytes_append (first rest : List Instruction)
    : codeBytes (first ++ rest) = codeBytes first ++ codeBytes rest :=
  List.flatMap_append

@[simp]
theorem length_codeBytes (code : List Instruction) : (codeBytes code).length = 4 * code.length := by
  induction code with
  | nil => rfl
  | cons i rest ih =>
      have split : codeBytes (i :: rest) = littleEndian i.word ++ codeBytes rest := rfl
      rw [split, List.length_append, ih, List.length_cons]
      change 4 + _ = _
      omega

theorem codeBytes_injective : Function.Injective codeBytes := by
  intro code other same
  have sizes := congrArg List.length same
  simp only [length_codeBytes] at sizes
  induction code generalizing other with
  | nil => exact (List.length_eq_zero_iff.mp (by simpa using sizes.symm)).symm
  | cons i rest ih =>
      cases other with
      | nil => simp at sizes
      | cons j others =>
          obtain ⟨word, behind⟩ := List.append_inj same rfl
          have first : i = j := congrArg Instruction.mk (littleEndian_injective word)
          rw [first, ih behind (by simpa using sizes)]

/-- The line and the counts of a prototype as bytes. -/
def headerBytes (p : Prototype) : List UInt8 :=
  littleEndian p.line ++ [p.upvalues, p.parameters, if p.variadic then 1 else 0]

theorem behaviourBytes_eq (p : Prototype)
    : behaviourBytes p = p.source.toUTF8.toList ++ (headerBytes p ++ codeBytes p.code.toList) := by
  simp [behaviourBytes, headerBytes, codeBytes]

end Reflection

-----------------------------------------------------------------------------------------
-- Prototypes that digests do not tell apart
-----------------------------------------------------------------------------------------

namespace Prototype

variable {p q : Prototype}

/-- Two prototypes agree in everything that a digest is made from. -/
structure Agrees (p q : Prototype) : Prop where
  source : p.source = q.source
  line : p.line = q.line
  upvalues : p.upvalues = q.upvalues
  parameters : p.parameters = q.parameters
  variadic : p.variadic = q.variadic
  code : p.code = q.code

/-- The source of a prototype reads on where that of another ends: what it has more, and then its own line
and counts, are the bytes of the line, the counts and the first instructions of the other, and the rest of
their instructions is the same.
-/
def Shifts (p q : Prototype) : Prop :=
  ∃ first surplus, first ≠ [] ∧ p.code.toList = first ++ q.code.toList
    ∧ q.source.toUTF8.toList = p.source.toUTF8.toList ++ surplus
    ∧ surplus ++ Reflection.headerBytes q
      = Reflection.headerBytes p ++ Reflection.codeBytes first

/-- Shifted prototypes have sources of which the one begins with the other and is longer. -/
theorem Shifts.proper (shifts : p.Shifts q)
    : p.source.toUTF8.toList <+: q.source.toUTF8.toList ∧ p.source ≠ q.source := by
  obtain ⟨first, surplus, some, -, longer, bytes⟩ := shifts
  refine ⟨⟨surplus, longer.symm⟩, fun same => some ?_⟩
  rw [same, List.self_eq_append_right] at longer
  have sizes := congrArg List.length bytes
  simpa [longer, Reflection.headerBytes, Reflection.littleEndian] using sizes

end Prototype

namespace Reflection

variable {p q : Prototype}

theorem headerBytes_inj (same : headerBytes p = headerBytes q)
    : p.line = q.line ∧ p.upvalues = q.upvalues ∧ p.parameters = q.parameters
      ∧ p.variadic = q.variadic := by
  obtain ⟨line, counts⟩ := List.append_inj same rfl
  simp only [List.cons.injEq, and_true] at counts
  obtain ⟨upvalues, parameters, variadic⟩ := counts
  refine ⟨littleEndian_injective line, upvalues, parameters, ?_⟩
  cases first : p.variadic <;> cases second : q.variadic <;> simp_all

/-- Behind bytes that are surplus, the lines, counts and instructions of two prototypes can only be the
same stream if the surplus is whole instructions of the one.
-/
theorem surplus_eq {surplus : List UInt8}
    (same : headerBytes p ++ codeBytes p.code.toList
      = surplus ++ (headerBytes q ++ codeBytes q.code.toList))
    : ∃ first, p.code.toList = first ++ q.code.toList
        ∧ surplus ++ headerBytes q = headerBytes p ++ codeBytes first := by
  have header (p : Prototype) : (headerBytes p).length = 7 := rfl
  have sizes := congrArg List.length same
  simp only [List.length_append, header, length_codeBytes] at sizes
  obtain ⟨first, rest, split, size⟩
      : ∃ first rest, p.code.toList = first ++ rest ∧ rest.length = q.code.toList.length :=
    ⟨_, _, (List.take_append_drop (p.code.toList.length - q.code.toList.length) _).symm,
      by rw [List.length_drop]; omega⟩
  rw [split, codeBytes_append, ← List.append_assoc, ← List.append_assoc] at same
  obtain ⟨front, back⟩ := List.append_inj' same (by rw [length_codeBytes, length_codeBytes, size])
  exact ⟨first, by rw [split, codeBytes_injective back], front.symm⟩

/-- What two prototypes with one stream have to do with each other, if the source of the first ends no
later.
-/
theorem agrees_or_shifts {surplus : List UInt8}
    (longer : q.source.toUTF8.toList = p.source.toUTF8.toList ++ surplus)
    (same : headerBytes p ++ codeBytes p.code.toList
      = surplus ++ (headerBytes q ++ codeBytes q.code.toList))
    : p.Agrees q ∨ p.Shifts q := by
  obtain ⟨first, code, bytes⟩ := surplus_eq same
  by_cases none : first = []
  · subst none
    have empty : surplus = [] := by
      have sizes := congrArg List.length bytes
      simpa [headerBytes, littleEndian, codeBytes] using sizes
    subst empty
    have header : headerBytes q = headerBytes p := by simpa [codeBytes] using bytes
    obtain ⟨line, upvalues, parameters, variadic⟩ := headerBytes_inj header.symm
    have source := Text.toUTF8_toList_injective (longer.trans (List.append_nil _))
    exact .inl ⟨source.symm, line, upvalues, parameters, variadic, Array.toList_inj.mp code⟩
  · exact .inr ⟨first, surplus, none, code, longer, bytes⟩

theorem behaviourBytes_of_shifts (shifts : p.Shifts q) : behaviourBytes p = behaviourBytes q := by
  obtain ⟨first, surplus, -, code, longer, bytes⟩ := shifts
  calc behaviourBytes p
      = p.source.toUTF8.toList ++ ((headerBytes p ++ codeBytes first) ++ codeBytes q.code.toList) := by
        rw [behaviourBytes_eq, code, codeBytes_append, List.append_assoc]
    _ = (p.source.toUTF8.toList ++ surplus) ++ (headerBytes q ++ codeBytes q.code.toList) := by
        rw [← bytes, List.append_assoc, List.append_assoc]
    _ = behaviourBytes q := by rw [← longer, behaviourBytes_eq]

/-- The bytes tell prototypes apart unless they agree or one is a shift of the other. -/
theorem behaviourBytes_eq_iff
    : behaviourBytes p = behaviourBytes q ↔ p.Agrees q ∨ p.Shifts q ∨ q.Shifts p := by
  constructor
  · intro same
    rw [behaviourBytes_eq, behaviourBytes_eq] at same
    rcases List.append_eq_append_iff.mp same with ⟨surplus, longer, rest⟩ | ⟨surplus, longer, rest⟩
    · exact (agrees_or_shifts longer rest).imp id .inl
    · refine (agrees_or_shifts longer rest).imp (fun agrees => ?_) .inr
      exact ⟨agrees.source.symm, agrees.line.symm, agrees.upvalues.symm, agrees.parameters.symm,
        agrees.variadic.symm, agrees.code.symm⟩
  · rintro (⟨source, line, upvalues, parameters, variadic, code⟩ | shifts | shifts)
    · unfold behaviourBytes
      rw [source, line, upvalues, parameters, variadic, code]
    · exact behaviourBytes_of_shifts shifts
    · exact (behaviourBytes_of_shifts shifts).symm

-----------------------------------------------------------------------------------------
-- Digests of closures
-----------------------------------------------------------------------------------------

/-- Digests of two closures, in one machine or in two, where no two streams have one digest. They differ
unless the prototypes agree or the source of one goes on where the other has a line, counts and
instructions.
-/
theorem digest_eq_iff {m n : Machine} {f g : ClosureRef} {c d : Closure}
    (held : m.heap.closures.get f.handle = .ok c) (other : n.heap.closures.get g.handle = .ok d)
    (p q : Prototype) (first : m.prototypes.get c.prototype = p) (second : n.prototypes.get d.prototype = q)
    (collisions : Sha1.digest (behaviourBytes p) = Sha1.digest (behaviourBytes q)
      → behaviourBytes p = behaviourBytes q)
    : ∃ s t, digest (.closure f) m = .ok (some s) m ∧ digest (.closure g) n = .ok (some t) n
        ∧ (s = t ↔ p.Agrees q ∨ p.Shifts q ∨ q.Shifts p)
        ∧ ((p.source.toUTF8.toList <+: q.source.toUTF8.toList → p.source = q.source)
          → (q.source.toUTF8.toList <+: p.source.toUTF8.toList → q.source = p.source)
          → (s = t ↔ p.Agrees q)) := by
  subst first second
  have digests
      : Text.hex (Sha1.digest (behaviourBytes (m.prototypes.get c.prototype)))
          = Text.hex (Sha1.digest (behaviourBytes (n.prototypes.get d.prototype)))
        ↔ (m.prototypes.get c.prototype).Agrees (n.prototypes.get d.prototype)
          ∨ (m.prototypes.get c.prototype).Shifts (n.prototypes.get d.prototype)
          ∨ (n.prototypes.get d.prototype).Shifts (m.prototypes.get c.prototype) := by
    rw [← behaviourBytes_eq_iff]
    exact ⟨fun same => collisions (Text.hex_injective same),
      fun same => congrArg (fun bytes => Text.hex (Sha1.digest bytes)) same⟩
  refine ⟨_, _, inspect_of_get held _, inspect_of_get other _, digests, fun apart others => ?_⟩
  rw [digests]
  constructor
  · rintro (agrees | shifts | shifts)
    · exact agrees
    · exact (shifts.proper.2 (apart shifts.proper.1)).elim
    · exact (shifts.proper.2 (others shifts.proper.1)).elim
  · exact .inl

/-- Any machine can be given closures over two prototypes that nest none. -/
theorem exists_closures (start : Machine) (p q : Prototype) (flat : p.nested = #[])
    (other : q.nested = #[])
    : ∃ (m : Machine) (f g : ClosureRef) (c d : Closure),
        m.heap.closures.get f.handle = .ok c ∧ m.heap.closures.get g.handle = .ok d
        ∧ m.prototypes.get c.prototype = p ∧ m.prototypes.get d.prototype = q := by
  have ordered : Prototype.Ordered #[p, q] := by
    intro index r held child member
    match index with
    | 0 | 1 =>
        cases held
        simp_all
    | index + 2 => simp at held
  have closure (index : Nat) : ∃ c : Closure, c.prototype = ⟨index⟩ :=
    ⟨{ prototype := ⟨index⟩, upvalues := #[], environment := start.globals }, rfl⟩
  obtain ⟨c, first⟩ := closure 0
  obtain ⟨d, second⟩ := closure 1
  refine ⟨{ start with
      heap := { start.heap with closures := ((start.heap.closures.insert c).2.insert d).2 }
      prototypes := ⟨#[p, q], ordered⟩ },
    ⟨(start.heap.closures.insert c).1⟩, ⟨((start.heap.closures.insert c).2.insert d).1⟩, c, d,
    Arena.get_insert_of_get _ (Arena.get_insert_self _ _), Arena.get_insert_self _ _, ?_, ?_⟩
  · rw [first]
    rfl
  · rw [second]
    rfl

/-- Two functions that differ in their lines have different digests. -/
theorem digest_eq_iff_lines
    : ∃ (m : Machine) (f g : ClosureRef) (s t : String),
        digest (.closure f) m = .ok (some s) m ∧ digest (.closure g) m = .ok (some t) m ∧ s ≠ t := by
  let start : Machine := { Machine.create 1 {} with context := ⟨0⟩, prototypes := {} }
  let p : Prototype := { line := 1, code := #[.abc .ret 0 1 0] }
  let q : Prototype := { line := 2, code := #[.abc .ret 0 1 0] }
  have apart : (Sha1.digest (behaviourBytes p)).head? ≠ (Sha1.digest (behaviourBytes q)).head? := by
    decide +kernel
  obtain ⟨m, f, g, c, d, held, other, first, second⟩ := exists_closures start p q rfl rfl
  obtain ⟨s, t, ends, ended, -, same⟩ :=
    digest_eq_iff held other p q first second fun equal => (apart (congrArg List.head? equal)).elim
  refine ⟨m, f, g, s, t, ends, ended, fun equal => ?_⟩
  have agrees := (same (fun _ => rfl) fun _ => rfl).mp equal
  exact absurd agrees.line (by decide)

/-- Two functions have one digest, though their sources, lines and code differ: what is the line of the
one reads as the end of the source of the other.
-/
theorem digest_not_injective
    : ∃ (m : Machine) (f g : ClosureRef) (c d : Closure) (s : String),
        m.heap.closures.get f.handle = .ok c ∧ m.heap.closures.get g.handle = .ok d
        ∧ behaviourBytes (m.prototypes.get c.prototype) = behaviourBytes (m.prototypes.get d.prototype)
        ∧ digest (.closure f) m = .ok (some s) m ∧ digest (.closure g) m = .ok (some s) m
        ∧ ¬(m.prototypes.get c.prototype).Agrees (m.prototypes.get d.prototype) := by
  let start : Machine := { Machine.create 1 {} with context := ⟨0⟩, prototypes := {} }
  let p : Prototype :=
    { source := "x", line := 0x41414141, code := #[.abc .move 0 0 0, .abc .ret 0 1 0] }
  let q : Prototype := { source := "xAAAA", code := #[.abc .ret 0 1 0] }
  have shifts : p.Shifts q :=
    ⟨[.abc .move 0 0 0], [0x41, 0x41, 0x41, 0x41], by decide +kernel⟩
  obtain ⟨m, f, g, c, d, held, other, first, second⟩ := exists_closures start p q rfl rfl
  have same := behaviourBytes_of_shifts shifts
  refine ⟨m, f, g, c, d, _, held, other, ?_, inspect_of_get held _, ?_, fun agrees => ?_⟩
  · rw [first, second, same]
  · rw [first, same, ← second]
    exact inspect_of_get other _
  · rw [first, second] at agrees
    exact absurd agrees.line (by decide)

end Reflection
end HookMachine
