import HookMachine.Proofs.Config.Values
import Mathlib.Data.List.DropRight
import Mathlib.Data.List.Forall2

/-!
Reading settings from a text. A text made of blank lines, comments, unknown names and values that
the settings take is read to the settings that show its last values; from any other text nothing is
read, and what is reported is its first line that is none of these, with its number among all lines.
-/

namespace HookMachine

-----------------------------------------------------------------------------------------
-- Blanks and what stands between them
-----------------------------------------------------------------------------------------

namespace Text

variable {α : Type} [DecidableEq α] {separator : α} {xs : List α} {parts : List (List α)}
  {cs before after : List Char}

/-- Blanks and nothing else. -/
def Blanks (cs : List Char) : Prop :=
  ∀ c ∈ cs, isBlank c = true

/-- Some characters without a blank among them. -/
structure Word (cs : List Char) : Prop where
  nonempty : cs ≠ []
  solid : ∀ c ∈ cs, isBlank c = false

/-- Some characters of which neither the first nor the last is a blank. -/
structure Phrase (cs : List Char) : Prop where
  first : ∃ c, cs.head? = some c ∧ isBlank c = false
  last : ∃ c, cs.getLast? = some c ∧ isBlank c = false

-- Decided along the list, and not by going through all characters.
instance : DecidablePred Blanks := fun cs =>
  decidable_of_iff (cs.all isBlank = true) List.all_eq_true

instance : DecidablePred Word := fun cs =>
  decidable_of_iff (cs ≠ [] ∧ cs.any isBlank = false)
    ⟨fun word => ⟨word.1, by simpa using word.2⟩, fun word => ⟨word.1, by simpa using word.2⟩⟩

theorem any_not_isBlank {end? : Option Char}
    : end?.any (!isBlank ·) = true ↔ ∃ c, end? = some c ∧ isBlank c = false := by
  simp [Option.any_eq_true]

instance : DecidablePred Phrase := fun cs =>
  decidable_of_iff (cs.head?.any (!isBlank ·) = true ∧ cs.getLast?.any (!isBlank ·) = true)
    ⟨fun ends => ⟨any_not_isBlank.mp ends.1, any_not_isBlank.mp ends.2⟩,
      fun phrase => ⟨any_not_isBlank.mpr phrase.first, any_not_isBlank.mpr phrase.last⟩⟩

theorem Word.phrase (word : Word cs) : Phrase cs := by
  refine ⟨⟨cs.head word.nonempty, List.head?_eq_some_head _, word.solid _ (List.head_mem _)⟩,
    ⟨cs.getLast word.nonempty, List.getLast?_eq_some_getLast _, word.solid _ (List.getLast_mem _)⟩⟩

theorem Phrase.append {first last middle : List Char} (begins : Phrase first) (ends : Phrase last)
    : Phrase (first ++ middle ++ last) := by
  obtain ⟨c, head, solid⟩ := begins.first
  obtain ⟨d, tail, firm⟩ := ends.last
  exact ⟨⟨c, by simp [head], solid⟩, ⟨d, by simp [tail], firm⟩⟩

/-- Blanks before something else are dropped. -/
theorem dropWhile_isBlank (blanks : Blanks before)
    (first : ∃ c, cs.head? = some c ∧ isBlank c = false)
    : (before ++ cs).dropWhile isBlank = cs := by
  obtain ⟨c, head, solid⟩ := first
  obtain ⟨rest, rfl⟩ := List.head?_eq_some_iff.mp head
  rw [List.dropWhile_append_of_pos blanks, List.dropWhile_cons_of_neg (by simp [solid])]

theorem trim_blanks (blanks : Blanks cs) : trim cs = [] := by
  rw [trim, List.dropWhile_eq_nil_iff.mpr blanks]
  rfl

/-- Blanks at the ends are trimmed off. -/
theorem trim_phrase (start : Blanks before) (phrase : Phrase cs) (finish : Blanks after)
    : trim (before ++ cs ++ after) = cs := by
  obtain ⟨c, head, solid⟩ := phrase.first
  have front : (before ++ cs ++ after).dropWhile isBlank = cs ++ after := by
    rw [List.append_assoc]
    exact dropWhile_isBlank start ⟨c, by simp [head], solid⟩
  have back : (after.reverse ++ cs.reverse).dropWhile isBlank = cs.reverse := by
    refine dropWhile_isBlank (fun d member => finish d (List.mem_reverse.mp member)) ?_
    rw [List.head?_reverse]
    exact phrase.last
  rw [trim, front, List.reverse_append, back, List.reverse_reverse]

/-- Trimming leaves the first character that is no blank. -/
theorem head?_trim {c : Char} {rest : List Char} (start : Blanks before) (solid : isBlank c = false)
    : (trim (before ++ c :: rest)).head? = some c := by
  have kept : trim (before ++ c :: rest) = (c :: rest).rdropWhile isBlank := by
    rw [trim, dropWhile_isBlank start ⟨c, rfl, solid⟩]
    rfl
  have nonempty : (c :: rest).rdropWhile isBlank ≠ [] := fun empty => by
    have blank := List.rdropWhile_eq_nil_iff.mp empty c (.head _)
    simp [solid] at blank
  obtain ⟨cut, joined⟩ := List.rdropWhile_prefix isBlank (l := c :: rest)
  rw [kept, ← List.head?_append_of_ne_nil _ nonempty, joined, List.head?_cons]

/-- What is left is nothing or a phrase, and blanks were around it. -/
theorem exists_trim (cs : List Char)
    : ∃ before after, Blanks before ∧ Blanks after ∧ cs = before ++ trim cs ++ after
        ∧ (trim cs = [] ∨ Phrase (trim cs)) := by
  let rest := cs.dropWhile isBlank
  have kept : trim cs = rest.rdropWhile isBlank := rfl
  have split : trim cs ++ rest.rtakeWhile isBlank = rest :=
    kept ▸ List.rdropWhile_append_rtakeWhile
  refine ⟨cs.takeWhile isBlank, rest.rtakeWhile isBlank, fun c => List.mem_takeWhile_imp,
    fun c => List.mem_rtakeWhile_imp, ?_, ?_⟩
  · rw [List.append_assoc, split, List.takeWhile_append_dropWhile]
  · rw [or_iff_not_imp_left]
    intro nonempty
    refine ⟨⟨(trim cs).head nonempty, List.head?_eq_some_head _, ?_⟩,
      ⟨(trim cs).getLast nonempty, List.getLast?_eq_some_getLast _, ?_⟩⟩
    · have head : rest.head? = some ((trim cs).head nonempty) := by
        rw [← split, List.head?_append_of_ne_nil _ nonempty, List.head?_eq_some_head]
      have solid := List.head?_dropWhile_not isBlank cs
      rw [show (cs.dropWhile isBlank).head? = _ from head] at solid
      exact solid
    · exact Bool.eq_false_iff.mpr (List.rdropWhile_last_not isBlank rest nonempty)

/-- A list that does not end in a blank is a phrase after the blanks that it begins with. -/
theorem phrase_dropWhile (ends : ∃ c, cs.getLast? = some c ∧ isBlank c = false)
    : Phrase (cs.dropWhile isBlank) := by
  obtain ⟨c, last, solid⟩ := ends
  have remains : cs.dropWhile isBlank ≠ [] := fun empty => by
    have blank := List.dropWhile_eq_nil_iff.mp empty c (List.mem_of_getLast? last)
    simp [solid] at blank
  refine ⟨⟨_, List.head?_eq_some_head remains, ?_⟩, c, ?_, solid⟩
  · have first := List.head?_dropWhile_not isBlank cs
    rwa [List.head?_eq_some_head remains] at first
  · rw [← last, ← List.getLast?_append_of_ne_nil (cs.takeWhile isBlank) remains,
      List.takeWhile_append_dropWhile]

/-- A word goes up to the first blank. -/
theorem Word.span {c : Char} (word : Word cs) (blank : isBlank c = true) (rest : List Char)
    : (cs ++ c :: rest).takeWhile (fun d => !isBlank d) = cs
      ∧ (cs ++ c :: rest).dropWhile (fun d => !isBlank d) = c :: rest := by
  have solid : ∀ d ∈ cs, (!isBlank d) = true := fun d member => by simp [word.solid d member]
  rw [List.takeWhile_append_of_pos solid, List.dropWhile_append_of_pos solid]
  simp [blank]

/-- The list is the parts with a separator between each two of them, and no part holds one. -/
structure Cut (separator : α) (xs : List α) (parts : List (List α)) : Prop where
  nonempty : parts ≠ []
  unbroken : ∀ part ∈ parts, separator ∉ part
  joined : [separator].intercalate parts = xs

/-- Cutting gives the parts, by induction over them. -/
theorem pieces_intercalate (nonempty : parts ≠ []) (unbroken : ∀ part ∈ parts, separator ∉ part)
    : pieces separator ([separator].intercalate parts) = parts := by
  induction parts with
  | nil => exact absurd rfl nonempty
  | cons part rest ih =>
      have free := unbroken part (.head _)
      cases rest with
      | nil => rw [List.intercalate_singleton, pieces_of_notMem free]
      | cons next rest =>
          rw [List.intercalate_cons_cons, List.append_assoc, List.singleton_append,
            pieces_append_cons _ free,
            ih (by simp) fun other member => unbroken other (.tail _ member)]

/-- Every list is cut into its pieces, by induction over it. -/
theorem cut_pieces (separator : α) (xs : List α) : Cut separator xs (pieces separator xs) := by
  induction xs with
  | nil => exact ⟨by simp [pieces], by simp [pieces], by simp [pieces]⟩
  | cons x xs ih =>
      obtain ⟨part, rest, cut⟩ := exists_pieces_eq_cons separator xs
      obtain ⟨-, unbroken, joined⟩ := ih
      rw [cut] at unbroken joined
      rw [pieces_cons, cut]
      dsimp only [extend]
      split
      · rename_i breaks
        refine ⟨by simp, List.forall_mem_cons.mpr ⟨List.not_mem_nil, unbroken⟩, ?_⟩
        rw [List.intercalate_cons_cons, joined, breaks]
        rfl
      · rename_i other
        obtain ⟨free, unbroken⟩ := List.forall_mem_cons.mp unbroken
        have still : separator ∉ x :: part := by simpa [Ne.symm other] using free
        refine ⟨by simp, List.forall_mem_cons.mpr ⟨still, unbroken⟩, ?_⟩
        rw [← joined]
        cases rest with
        | nil => simp only [List.intercalate_singleton]
        | cons next rest => simp only [List.intercalate_cons_cons, List.cons_append]

theorem Cut.pieces (cut : Cut separator xs parts) : pieces separator xs = parts :=
  cut.joined ▸ pieces_intercalate cut.nonempty cut.unbroken

end Text

namespace Config

-----------------------------------------------------------------------------------------
-- Lines
-----------------------------------------------------------------------------------------

/-- What a line says. -/
inductive Line where
  | blank
  | comment
  | unknown
  | setting (setting : Setting) (value : String)

/-- The line is a name and a value, with blanks between and perhaps around them. -/
structure Pair (line name value : List Char) : Prop where
  word : Text.Word name
  uncommented : name.head? ≠ some '#'
  phrase : Text.Phrase value
  laid : ∃ before gap after, Text.Blanks before ∧ gap ≠ [] ∧ Text.Blanks gap ∧ Text.Blanks after
    ∧ line = before ++ (name ++ gap ++ value) ++ after

/-- The characters are the name of the setting, in whatever case. -/
def Names (name : List Char) (setting : Setting) : Prop :=
  name.map Char.toLower = setting.name.toList

instance (name : List Char) (setting : Setting) : Decidable (Names name setting) :=
  inferInstanceAs (Decidable (_ = _))

/-- Lines that can be read, and what they say. -/
inductive Spells : List Char → Line → Prop where
  | blank {line} (blanks : Text.Blanks line) : Spells line .blank
  | comment {before rest} (blanks : Text.Blanks before) : Spells (before ++ '#' :: rest) .comment
  | unknown {line name value} (pair : Pair line name value)
    (unknown : ∀ setting, ¬Names name setting)
    : Spells line .unknown
  | setting {line name setting} {value : String} (pair : Pair line name value.toList)
    (names : Names name setting) (takes : setting.Takes value.toList)
    : Spells line (.setting setting value)

/-- Lines that cannot be read, and how they are reported under a number. -/
inductive Offends (number : Nat) : List Char → Problem → Prop where
  /-- A name without a value. -/
  | bare {before name after} (start : Text.Blanks before) (word : Text.Word name)
    (uncommented : name.head? ≠ some '#') (finish : Text.Blanks after)
    : Offends number (before ++ name ++ after) (.line number (String.ofList name))
  /-- A value that the setting does not take. -/
  | value {line name setting} {value : String} (pair : Pair line name value.toList)
    (names : Names name setting) (refuses : ¬setting.Takes value.toList)
    : Offends number line (.value setting number value)

variable {config next wanted : Config} {setting : Setting} {line name value : List Char}
  {number : Nat} {problem : Problem} {lines : List (List Char)}

/-- Each line can be read or cannot. -/
theorem spells_or_offends (number : Nat) (line : List Char)
    : (∃ what, Spells line what) ∨ ∃ problem, Offends number line problem := by
  obtain ⟨before, after, start, finish, split, empty | phrase⟩ := Text.exists_trim line
  · refine .inl ⟨.blank, .blank ?_⟩
    rw [split, empty, List.append_nil]
    exact fun c member => (List.mem_append.mp member).elim (start c) (finish c)
  obtain ⟨c, head, solid⟩ := phrase.first
  obtain ⟨rest, text⟩ := List.head?_eq_some_iff.mp head
  by_cases comment : c = '#'
  · subst comment
    rw [split, text, List.append_assoc, List.cons_append]
    exact .inl ⟨.comment, .comment start⟩
  -- The first word is the name, and what follows it up to the end is the value.
  let name := (Text.trim line).takeWhile fun c => !Text.isBlank c
  let rest := (Text.trim line).dropWhile fun c => !Text.isBlank c
  have whole : name ++ rest = Text.trim line := List.takeWhile_append_dropWhile
  have first : name.head? = some c := by
    change (List.takeWhile _ (Text.trim line)).head? = some c
    rw [text, List.takeWhile_cons_of_pos (by simp [solid]), List.head?_cons]
  have word : Text.Word name :=
    ⟨by rintro empty; simp [empty] at first,
      fun c member => by simpa using List.mem_takeWhile_imp member⟩
  have uncommented : name.head? ≠ some '#' := by simpa [first] using comment
  by_cases bare : rest = []
  · rw [bare, List.append_nil] at whole
    refine .inr ⟨.line number (String.ofList name), ?_⟩
    rw [split, ← whole]
    exact .bare start word uncommented finish
  have value : Text.Phrase (rest.dropWhile Text.isBlank) := by
    refine Text.phrase_dropWhile ?_
    rw [← List.getLast?_append_of_ne_nil name bare, whole]
    exact phrase.last
  have pair : Pair line name (rest.dropWhile Text.isBlank) := by
    refine ⟨word, uncommented, value, before, rest.takeWhile Text.isBlank, after, start, ?_,
      fun c => List.mem_takeWhile_imp, finish, ?_⟩
    · have blank := List.head?_dropWhile_not (fun c => !Text.isBlank c) (Text.trim line)
      rw [show (List.dropWhile _ _).head? = _ from List.head?_eq_some_head bare] at blank
      rw [← List.cons_head_tail bare, List.takeWhile_cons_of_pos (by simpa using blank)]
      exact List.cons_ne_nil _ _
    · rw [List.append_assoc name, List.takeWhile_append_dropWhile, whole, ← split]
  rw [← String.toList_ofList (l := rest.dropWhile Text.isBlank)] at pair
  by_cases known : ∃ setting, Names name setting
  · obtain ⟨setting, names⟩ := known
    by_cases takes : setting.Takes (String.ofList (rest.dropWhile Text.isBlank)).toList
    · exact .inl ⟨_, .setting pair names takes⟩
    · exact .inr ⟨_, .value pair names takes⟩
  · exact .inl ⟨_, .unknown pair (not_exists.mp known)⟩

-----------------------------------------------------------------------------------------
-- Reading a line
-----------------------------------------------------------------------------------------

/-- What a line makes of the settings. -/
def Line.effect? (config : Config) : Line → Option Config
  | .setting setting value => config.assign? setting value.toList
  | _ => some config

theorem ofName?_eq_some
    : Setting.ofName? (String.ofList (name.map Char.toLower)) = some setting
      ↔ Names name setting := by
  unfold Names
  rw [← String.ofList_inj, String.ofList_toList]
  constructor
  · intro found
    simpa [eq_comm] using List.find?_some found
  · intro named
    rw [named]
    cases setting <;> rfl

/-- A pair is taken apart into its name and its value. -/
theorem Pair.readLine (pair : Pair line name value)
    : readLine config number line
      = match Setting.ofName? (String.ofList (name.map Char.toLower)) with
        | none => .ok config
        | some setting =>
            match assign? config setting value with
            | some next => .ok next
            | none => .error (.value setting number (String.ofList value)) := by
  obtain ⟨before, gap, after, start, gapped, between, finish, rfl⟩ := pair.laid
  obtain ⟨blank, more, rfl⟩ := List.exists_cons_of_ne_nil gapped
  have shape : name ++ (blank :: more) ++ value = name ++ blank :: (more ++ value) := by simp
  have phrase : Text.Phrase (name ++ (blank :: more) ++ value) :=
    pair.word.phrase.append pair.phrase
  have core := Text.trim_phrase start phrase finish
  have span := pair.word.span (between blank (.head _)) (more ++ value)
  have trimmed : Text.trim (blank :: (more ++ value)) = value := by
    have nothing : Text.Blanks [] := List.forall_mem_nil _
    simpa using Text.trim_phrase between pair.phrase nothing
  have said : ((name ++ blank :: (more ++ value)).isEmpty
      || (name ++ blank :: (more ++ value)).head? = some '#') = false := by
    have nonempty := pair.word.nonempty
    have uncommented := pair.uncommented
    rw [List.head?_append_of_ne_nil _ nonempty]
    simp [nonempty, uncommented]
  rw [shape] at core ⊢
  unfold Config.readLine
  simp only [core, span.1, span.2, trimmed, said]
  rfl

/-- A line that says something is read for what it says. -/
theorem Spells.readLine {what : Line} (spells : Spells line what) (config : Config) (number : Nat)
    : ∃ next, what.effect? config = some next ∧ readLine config number line = .ok next := by
  cases spells with
  | blank blanks =>
      refine ⟨config, rfl, ?_⟩
      rw [Config.readLine, Text.trim_blanks blanks]
      rfl
  | @comment before rest blanks =>
      have mark : (Text.trim (before ++ '#' :: rest)).head? = some '#' :=
        Text.head?_trim blanks (by decide)
      refine ⟨config, rfl, ?_⟩
      unfold Config.readLine
      simp only [mark, decide_true, Bool.or_true, if_true]
  | unknown pair unknown =>
      refine ⟨config, rfl, ?_⟩
      rw [pair.readLine, Option.eq_none_iff_forall_ne_some.mpr fun setting found =>
        unknown setting (ofName?_eq_some.mp found)]
  | setting pair names takes =>
      obtain ⟨next, taken⟩ := Option.isSome_iff_exists.mp (isSome_assign?.mpr takes)
      refine ⟨next, taken, ?_⟩
      rw [pair.readLine, ofName?_eq_some.mpr names]
      simp only [taken]

/-- A line that cannot be read is reported. -/
theorem Offends.readLine (offends : Offends number line problem) (config : Config)
    : readLine config number line = .error problem := by
  cases offends with
  | bare start word uncommented finish =>
      rename_i name after
      have core := Text.trim_phrase start word.phrase finish
      have solid : ∀ c ∈ name, (!Text.isBlank c) = true :=
        fun c member => by simp [word.solid c member]
      have back := List.dropWhile_eq_nil_iff.mpr solid
      have said : (name.isEmpty || name.head? = some '#') = false := by
        simp [word.nonempty, uncommented]
      unfold Config.readLine
      simp only [core, back, said]
      rfl
  | value pair names refuses =>
      have none_taken : config.assign? _ _ = none :=
        Option.not_isSome_iff_eq_none.mp (mt isSome_assign?.mp refuses)
      rw [pair.readLine, ofName?_eq_some.mpr names]
      simp only [none_taken, String.ofList_toList]

-----------------------------------------------------------------------------------------
-- Reading a text
-----------------------------------------------------------------------------------------

/-- The value that a line gives to a setting. -/
def Line.value? (setting : Setting) : Line → Option String
  | .setting other value => if other = setting then some value else none
  | _ => none

/-- The value that the last line which gives a setting one gives to it. -/
def lastValue? (setting : Setting) (said : List Line) : Option String :=
  (said.filterMap (Line.value? setting)).getLast?

theorem lastValue?_cons (setting : Setting) (what : Line) (rest : List Line)
    : lastValue? setting (what :: rest) = (lastValue? setting rest).or (what.value? setting) := by
  unfold lastValue?
  cases given : what.value? setting with
  | none => rw [List.filterMap_cons_none given, Option.or_none]
  | some value => rw [List.filterMap_cons_some given, List.getLast?_cons, Option.or_some]

/-- What is still to be read makes the settings the wanted ones: each setting gets its text with the
last value, or has it already.
-/
def Completes (config wanted : Config) (said : List Line) : Prop :=
  ∀ setting, (lastValue? setting said).getD (config.text setting) = wanted.text setting

/-- Reading on keeps what is wanted. -/
theorem Completes.effect {what : Line} {rest : List Line} (ranged : wanted.Ranged)
    (leveled : wanted.Leveled) (completes : config.Completes wanted (what :: rest))
    (effect : what.effect? config = some next)
    : next.Completes wanted rest := by
  intro setting
  have given := completes setting
  rw [lastValue?_cons] at given
  cases last : lastValue? setting rest with
  | some value => simpa [last] using given
  | none =>
      rw [last, Option.none_or] at given
      rw [Option.getD_none]
      cases what with
      | blank | comment | unknown =>
          cases effect
          exact given
      | setting named value =>
          by_cases same : named = setting
          · subst same
            have shown : value = wanted.text named := by simpa [Line.value?] using given
            exact text_assign? ranged leveled (shown ▸ effect)
          · have kept : config.text setting = wanted.text setting := by
              simpa [Line.value?, same] using given
            exact (text_assign?_of_ne effect (Ne.symm same)).trans kept

/-- Lines that can be read are read to the wanted settings, by induction over them. -/
theorem readLines_eq_ok {said : List Line} (ranged : wanted.Ranged) (leveled : wanted.Leveled)
    (spells : List.Forall₂ Spells lines said) (completes : config.Completes wanted said)
    (number : Nat)
    : readLines config number (lines.map .ok) = .ok wanted := by
  induction spells generalizing config number with
  | nil => exact congrArg Except.ok (eq_of_text completes)
  | cons line_spells _ ih =>
      obtain ⟨next, effect, read⟩ := line_spells.readLine config number
      rw [List.map_cons, readLines, read]
      exact ih (completes.effect ranged leveled effect) (number + 1)

/-- The problem is that of the first line that cannot be read, where lines count from a number. -/
def FirstOffence (number : Nat) (lines : List (List Char)) (problem : Problem) : Prop :=
  ∃ before line after, lines = before ++ line :: after
    ∧ (∀ earlier ∈ before, ∃ what, Spells earlier what)
    ∧ Offends (number + before.length) line problem

theorem firstOffence_cons {line : List Char} {what : Line} (spells : Spells line what)
    : FirstOffence number (line :: lines) problem ↔ FirstOffence (number + 1) lines problem := by
  constructor
  · rintro ⟨before, culprit, after, split, readable, offends⟩
    cases before with
    | nil =>
        obtain ⟨rfl, rfl⟩ := List.cons.inj split
        obtain ⟨_, _, read⟩ := spells.readLine {} (number + 0)
        exact absurd (read.symm.trans (offends.readLine {})) nofun
    | cons first before =>
        obtain ⟨rfl, rfl⟩ := List.cons.inj split
        refine ⟨before, culprit, after, rfl,
          fun earlier member => readable earlier (.tail _ member), ?_⟩
        rwa [List.length_cons, Nat.add_comm before.length, ← Nat.add_assoc] at offends
  · rintro ⟨before, culprit, after, rfl, readable, offends⟩
    refine ⟨line :: before, culprit, after, rfl, ?_, ?_⟩
    · exact List.forall_mem_cons.mpr ⟨⟨what, spells⟩, readable⟩
    · rwa [List.length_cons, Nat.add_comm before.length, ← Nat.add_assoc]

/-- Reading fails with the first line that cannot be read, by induction over the lines. -/
theorem readLines_eq_error_iff
    : readLines config number (lines.map .ok) = .error problem
      ↔ FirstOffence number lines problem := by
  induction lines generalizing config number with
  | nil =>
      constructor
      · exact nofun
      · rintro ⟨before, line, after, split, -⟩
        exact absurd split.symm (by simp)
  | cons line rest ih =>
      rcases spells_or_offends number line with ⟨what, spells⟩ | ⟨reported, offends⟩
      · obtain ⟨next, -, read⟩ := spells.readLine config number
        rw [firstOffence_cons spells, List.map_cons, readLines, read]
        exact ih
      · rw [List.map_cons, readLines, offends.readLine config]
        constructor
        · rintro ⟨⟩
          exact ⟨[], line, rest, rfl, nofun, offends⟩
        · rintro ⟨before, culprit, after, split, readable, found⟩
          cases before with
          | nil =>
              obtain ⟨rfl, rfl⟩ := List.cons.inj split
              have first := offends.readLine config
              exact first.symm.trans (found.readLine config)
          | cons first before =>
              obtain ⟨rfl, rfl⟩ := List.cons.inj split
              obtain ⟨what, spells⟩ := readable line (.head _)
              obtain ⟨_, _, read⟩ := spells.readLine config number
              exact absurd (read.symm.trans (offends.readLine config)) nofun

/-- Levels stay in bounds, by induction over the lines. -/
theorem Leveled.readLines (leveled : config.Leveled)
    (read : readLines config number (lines.map .ok) = .ok next)
    : next.Leveled := by
  induction lines generalizing config number with
  | nil =>
      cases read
      exact leveled
  | cons line rest ih =>
      rw [List.map_cons, Config.readLines] at read
      rcases spells_or_offends number line with ⟨what, spells⟩ | ⟨reported, offends⟩
      · obtain ⟨middle, effect, first⟩ := spells.readLine config number
        rw [first] at read
        refine ih ?_ read
        cases what with
        | blank | comment | unknown => exact Option.some.inj effect ▸ leveled
        | setting => exact leveled.assign? effect
      · rw [offends.readLine config] at read
        exact absurd read nofun

/-- The lines of a text are what stands between its line breaks. -/
def LinesOf (text : String) (lines : List (List Char)) : Prop :=
  Text.Cut '\n' text.toList lines

/-- A text whose lines can all be read, and in which the last value of each setting is what some
settings show of it, is read to these settings. The levels that a text is read to are in bounds; and
a text from which nothing is read is reported for the first of its lines that cannot be read.
-/
theorem reads_what_is_shown
    : (∀ (config : Config) (text : String) (lines : List (List Char)) (said : List Line),
        config.Ranged → config.Leveled → LinesOf text lines → List.Forall₂ Spells lines said
          → (∀ setting : Setting, lastValue? setting said = config.get? setting.name)
          → parse text = .ok config)
      ∧ (∀ (text : String) (config : Config), parse text = .ok config → config.Leveled)
      ∧ ∀ (text : String) (problem : Problem),
          parse text = .error problem
            ↔ ∃ lines, LinesOf text lines ∧ FirstOffence 1 lines problem := by
  refine ⟨?_, ?_, ?_⟩
  · intro config text lines said ranged leveled cut spells last
    rw [parse, cut.pieces]
    refine readLines_eq_ok ranged leveled spells (fun setting => ?_) 1
    rw [last, get?_name, Option.getD_some]
  · intro text config read
    have initial : Leveled {} := ⟨by decide, by decide⟩
    exact initial.readLines read
  · intro text problem
    rw [parse, readLines_eq_error_iff]
    constructor
    · exact fun first => ⟨_, Text.cut_pieces '\n' text.toList, first⟩
    · rintro ⟨lines, cut, first⟩
      exact cut.pieces ▸ first

/-- A name in other case, blanks of several kinds, a value that is overridden and the largest
number; and a value out of bounds behind a comment and an unknown name.
-/
theorem reads_what_is_shown_mixed
    : (∃ (config : Config) (text : String) (lines : List (List Char)) (said : List Line),
        (config.Ranged ∧ config.Leveled ∧ LinesOf text lines ∧ List.Forall₂ Spells lines said
          ∧ ∀ setting : Setting, lastValue? setting said = config.get? setting.name)
        ∧ parse text = .ok config ∧ config.limits.instructions + 1 = UInt64.size)
      ∧ parse "# levels\nbind here\n\ndefault-identity 9\nloglevel"
        = .error (.value .defaultIdentity 4 "9") := by
  obtain ⟨reads, -, reports⟩ := reads_what_is_shown
  have pair (before name gap value after : List Char)
      (fits : Text.Word name ∧ name.head? ≠ some '#' ∧ Text.Phrase value ∧ Text.Blanks before
        ∧ gap ≠ [] ∧ Text.Blanks gap ∧ Text.Blanks after)
      : Pair (before ++ (name ++ gap ++ value) ++ after) name value :=
    ⟨fits.1, fits.2.1, fits.2.2.1, before, gap, after, fits.2.2.2.1, fits.2.2.2.2.1,
      fits.2.2.2.2.2.1, fits.2.2.2.2.2.2, rfl⟩
  refine ⟨?_, ?_⟩
  · let config : Config :=
      { limits :=
          { callDepth := 64
            instructions := 18446744073709551615
            redirectDepth := 0 }
        defaultLevel := 8
        privilegedLevel := 0
        logLevel := .debug }
    let shown (setting : Setting) : List Char :=
      [] ++ (setting.name.toList ++ [' '] ++ (config.text setting).toList) ++ []
    have plain (setting : Setting)
        : Spells (shown setting) (.setting setting (config.text setting)) := by
      refine .setting (pair _ _ _ _ _ ?_) ?_ ?_ <;> cases setting <;> decide +kernel
    let lines : List (List Char) :=
      [[] ++ '#' :: " levels".toList,
        "\t".toList ++ ("LogLevel".toList ++ "  ".toList ++ "Notice".toList) ++ "\r".toList,
        [] ++ ("bind".toList ++ [' '] ++ "here".toList) ++ [], []] ++ Setting.all.map shown
    let said : List Line :=
      [.comment, .setting .logLevel "Notice", .unknown, .blank]
        ++ Setting.all.map fun setting => .setting setting (config.text setting)
    have ranged : config.Ranged := ⟨by decide, by decide, by decide⟩
    have leveled : config.Leveled := ⟨by decide, by decide⟩
    have cut : LinesOf (String.ofList (['\n'].intercalate lines)) lines :=
      ⟨by decide, by decide +kernel, String.toList_ofList.symm⟩
    have overridden : Setting.logLevel.Takes "Notice".toList := by decide +kernel
    have spells : List.Forall₂ Spells lines said := by
      refine .cons (.comment (by decide)) (.cons ?_ (.cons ?_ (.cons (.blank (by decide)) ?_)))
      · exact .setting (pair _ _ _ _ _ (by decide +kernel)) (by decide +kernel) overridden
      · refine .unknown (pair _ _ _ _ _ (by decide +kernel)) fun setting => ?_
        cases setting <;> decide +kernel
      · exact List.forall₂_map_left_iff.mpr
          (List.forall₂_map_right_iff.mpr (List.forall₂_same.mpr fun setting _ => plain setting))
    have last (setting : Setting) : lastValue? setting said = config.get? setting.name := by
      cases setting <;> decide +kernel
    exact ⟨config, _, lines, said, ⟨ranged, leveled, cut, spells, last⟩,
      reads config _ lines said ranged leveled cut spells last, rfl⟩
  · refine (reports _ _).mpr ⟨_, Text.cut_pieces _ _, ["# levels".toList, "bind here".toList, []],
      "default-identity 9".toList, ["loglevel".toList], by decide +kernel, ?_, ?_⟩
    · refine List.forall_mem_cons.mpr ⟨⟨.comment, ?_⟩, List.forall_mem_cons.mpr ⟨⟨.unknown, ?_⟩,
        List.forall_mem_singleton.mpr ⟨.blank, .blank (by decide)⟩⟩⟩
      · exact @Spells.comment [] " levels".toList (by decide)
      · refine .unknown (pair [] "bind".toList [' '] "here".toList [] (by decide +kernel)) ?_
        intro setting
        cases setting <;> decide +kernel
    · exact .value (pair [] "default-identity".toList [' '] "9".toList [] (by decide +kernel))
        (by decide +kernel) (by decide +kernel)

end Config
end HookMachine
