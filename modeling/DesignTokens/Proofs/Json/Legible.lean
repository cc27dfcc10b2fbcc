import Mathlib.Algebra.Group.Nat.Defs
import Mathlib.Data.List.Infix
import DesignTokens.Document.Dump
import DesignTokens.Json.Reader

/-!
# What JSON text holds

A value that the reader of documents gives is no arbitrary data: integers have a limited number of digits, lists and
objects lie in one another only so deep, and every text in it is Unicode text. `Json.Legible` says that of a value, and
`Json.exists_legible_of_read?` that of every value read from Unicode text.

Readers take the rest of a text and leave another rest. `Reader.Yields` states what a reader gives and that what it
leaves is Unicode text again, with one rule for each way in which readers are put together.

* `Json.Reader.number?_yields` — an integer that is read has at most the digits that an integer may have.
* `Json.Reader.legibleWithin` — what is read at some depth fits there.
* `Json.exists_legible_of_read?` — the value of a text is legible.
* `Json.unicode?_of_legible` — a legible value can be written as it is.
-/

namespace DesignTokens

namespace Text

/-- Characters none of which stands for a half of a surrogate pair. -/
def Unicode (cs : List Char) : Prop := ∀ c ∈ cs, half? c = none

instance (cs : List Char) : Decidable (Unicode cs) :=
  decidable_of_iff (cs.all fun c => (half? c).isNone) (by simp [Unicode])

theorem hasHalf_eq_false_iff {s : String} : hasHalf s = false ↔ Unicode s.toList := by
  simp [hasHalf, Unicode]

theorem Unicode.of_suffix {cs rest : List Char} (h : Unicode cs) (hrest : rest <:+ cs) : Unicode rest :=
  fun c hmem => h c (hrest.subset hmem)

theorem unicode_append {cs others : List Char} : Unicode (cs ++ others) ↔ Unicode cs ∧ Unicode others := by
  simp [Unicode, or_imp, forall_and]

theorem unicode_cons {c : Char} {cs : List Char} : Unicode (c :: cs) ↔ half? c = none ∧ Unicode cs := by
  simp [Unicode]

end Text

open Text (Unicode)

namespace Json

/-- A value that JSON text may hold inside `depth` lists and objects less than are allowed. -/
inductive Legible : (depth : Nat) → Json → Prop where
  | null {depth : Nat} : Legible depth .null
  | bool {depth : Nat} (value : Bool) : Legible depth (.bool value)
  | int {depth : Nat} {n : Int} (h : n.natAbs < 10 ^ Number.maximalDigits) : Legible depth (.int n)
  | float {depth : Nat} (x : Float) : Legible depth (.float x)
  | string {depth : Nat} {s : String} (h : Text.hasHalf s = false) : Legible depth (.string s)
  | noItems {depth : Nat} : Legible depth (.list [])
  | noMembers {depth : Nat} : Legible depth (.object [])
  | list {depth : Nat} {items : List Json} (h : ∀ item ∈ items, Legible depth item) : Legible (depth + 1) (.list items)
  | object {depth : Nat} {members : List (String × Json)} (hnames : ∀ member ∈ members, Text.hasHalf member.1 = false)
      (h : ∀ member ∈ members, Legible depth member.2) : Legible (depth + 1) (.object members)

namespace Legible

variable {depth : Nat}

theorem mono {deeper : Nat} {v : Json} (h : Legible depth v) (hle : depth ≤ deeper) : Legible deeper v := by
  induction h generalizing deeper with
  | null => exact .null
  | bool b => exact .bool b
  | int h => exact .int h
  | float x => exact .float x
  | string h => exact .string h
  | noItems => exact .noItems
  | noMembers => exact .noMembers
  | list _ ih =>
    obtain ⟨inner, rfl⟩ := Nat.exists_eq_add_of_le' (Nat.one_le_of_lt hle)
    exact .list fun item hmem => ih item hmem (Nat.le_of_succ_le_succ hle)
  | object hnames _ ih =>
    obtain ⟨inner, rfl⟩ := Nat.exists_eq_add_of_le' (Nat.one_le_of_lt hle)
    exact .object hnames fun member hmem => ih member hmem (Nat.le_of_succ_le_succ hle)

theorem list_iff {items : List Json} : Legible (depth + 1) (.list items) ↔ ∀ item ∈ items, Legible depth item := by
  constructor
  · intro h
    cases h with
    | noItems => simp
    | list h => exact h
  · exact .list

theorem object_iff {members : List (String × Json)} :
    Legible (depth + 1) (.object members) ↔
      ∀ member ∈ members, Text.hasHalf member.1 = false ∧ Legible depth member.2 := by
  constructor
  · intro h
    cases h with
    | noMembers => simp
    | object hnames h => exact fun member hmem => ⟨hnames member hmem, h member hmem⟩
  · exact fun h => .object (fun member hmem => (h member hmem).1) fun member hmem => (h member hmem).2

end Legible

/-! ### Readers -/

namespace Reader

variable {α β : Type} {P : α → Prop} {Q : β → Prop} {cs : List Char}

/-- What is read has a property, and what is left is Unicode text. -/
def Yields (P : α → Prop) (result : Option (α × List Char)) : Prop :=
  ∀ x rest, result = some (x, rest) → P x ∧ Unicode rest

namespace Yields

theorem none : Yields P none := fun _ _ h => nomatch h

theorem some {x : α} (hx : P x) (hrest : Unicode cs) : Yields P (some (x, cs)) := by
  intro y rest h
  cases h
  exact ⟨hx, hrest⟩

theorem bind {result : Option (α × List Char)} {f : α × List Char → Option (β × List Char)} (h : Yields P result)
    (hf : ∀ x rest, P x → Unicode rest → Yields Q (f (x, rest))) : Yields Q (result >>= f) := by
  intro y rest hbind
  obtain ⟨⟨x, between⟩, hresult, hy⟩ := Option.bind_eq_some_iff.mp hbind
  obtain ⟨hx, hbetween⟩ := h x between hresult
  exact hf x between hx hbetween y rest hy

theorem map {result : Option (α × List Char)} {f : α × List Char → β × List Char} (h : Yields P result)
    (hf : ∀ x rest, P x → Unicode rest → Q (f (x, rest)).1 ∧ Unicode (f (x, rest)).2) : Yields Q (result.map f) := by
  intro y rest hmap
  obtain ⟨⟨x, between⟩, hresult, hy⟩ := Option.map_eq_some_iff.mp hmap
  obtain ⟨hx, hbetween⟩ := h x between hresult
  simpa [hy] using hf x between hx hbetween

theorem ite {c : Prop} [Decidable c] {a b : Option (α × List Char)} (ha : c → Yields P a) (hb : ¬c → Yields P b) :
    Yields P (if c then a else b) := by
  by_cases h : c
  · rw [if_pos h]
    exact ha h
  · rw [if_neg h]
    exact hb h

end Yields

theorem unicode_skipSpaces (h : Unicode cs) : Unicode (skipSpaces cs) :=
  h.of_suffix (List.dropWhile_suffix _)

theorem after?_leaves {word : String} {rest : List Char} (h : Unicode cs) (hafter : after? word cs = some rest) :
    Unicode rest := by
  unfold after? at hafter
  split at hafter
  · cases hafter
    exact h.of_suffix (List.drop_suffix _ _)
  · cases hafter

theorem unit?_yields (h : Unicode cs) : Yields (fun _ => True) (unit? cs) := by
  unfold unit?
  split
  · next a b c d rest =>
    have hrest : Unicode rest := h.of_suffix ⟨[a, b, c, d], rfl⟩
    cases [a, b, c, d].mapM Number.Literal.hexValue? with
    | none => exact .none
    | some digits => exact .some trivial hrest
  · exact .none

theorem lowHalf?_yields (h : Unicode cs) : Yields (fun _ => True) (lowHalf? cs) := by
  unfold lowHalf?
  cases hafter : after? "\\u" cs with
  | none => exact .none
  | some rest =>
    refine (unit?_yields (after?_leaves h hafter)).bind fun low rest _ hrest => ?_
    exact .ite (fun _ => .some trivial hrest) fun _ => .none

theorem unitCharacter?_yields {code : Nat} (h : Unicode cs) : Yields (fun _ => True) (unitCharacter? code cs) := by
  unfold unitCharacter?
  split
  · next low rest hpair =>
    refine .some trivial ?_
    split at hpair
    · exact (lowHalf?_yields h low rest hpair).2
    · cases hpair
  · cases Text.ofCode? code with
    | none => exact .none
    | some c => exact .some trivial h

/-- An escape in a document stands for no half. -/
theorem unicodeEscape?_yields (h : Unicode cs) :
    Yields (fun c => Text.half? c = none) (unicodeEscape? .document cs) := by
  unfold unicodeEscape?
  refine (unit?_yields h).bind fun code rest _ hrest => ?_
  refine (unitCharacter?_yields hrest).bind fun c rest _ hrest => ?_
  exact .ite (fun _ => .none) fun hhalf => .some (by simpa [Dialect.document] using hhalf) hrest

theorem half?_of_escape? {letter c : Char} (h : escape? letter = some c) : Text.half? c = none := by
  have hmem : (letter, c) ∈ [('"', '"'), ('\\', '\\'), ('/', '/'), ('b', '\x08'), ('f', '\x0c'), ('n', '\n'),
      ('r', '\r'), ('t', '\t')] := by
    obtain ⟨before, behind, heq, -⟩ := List.lookup_eq_some_iff.mp h
    rw [heq]
    simp
  have hall : ∀ pair ∈ [('"', '"'), ('\\', '\\'), ('/', '/'), ('b', '\x08'), ('f', '\x0c'), ('n', '\n'),
      ('r', '\r'), ('t', '\t')], Text.half? pair.2 = none := by decide
  exact hall _ hmem

theorem character?_yields (h : Unicode cs) :
    Yields (fun c => Text.half? c = none) (character? .document cs) := by
  unfold character?
  split
  · next rest => exact unicodeEscape?_yields (h.of_suffix ⟨['\\', 'u'], rfl⟩)
  · next letter rest _ =>
    cases hescape : escape? letter with
    | none => exact .none
    | some c => exact .some (half?_of_escape? hescape) (h.of_suffix ⟨['\\', letter], rfl⟩)
  · next c rest _ _ => exact .ite (fun _ => .none) fun _ => .some (h c (List.mem_cons_self ..)) (h.of_suffix ⟨[c], rfl⟩)
  · exact .none

theorem stringBody_yields {steps : Nat} {before : List Char} (hbefore : Unicode before) (h : Unicode cs) :
    Yields (fun s => Text.hasHalf s = false) (stringBody .document steps before cs) := by
  induction steps generalizing before cs with
  | zero =>
    unfold stringBody
    split
    · next rest =>
      refine .some ?_ (h.of_suffix ⟨['"'], rfl⟩)
      rw [Text.hasHalf_eq_false_iff, String.toList_ofList]
      exact fun c hmem => hbefore c (List.mem_reverse.mp hmem)
    · exact .none
    · next heq _ => cases heq
  | succ steps ih =>
    unfold stringBody
    split
    · next rest =>
      refine .some ?_ (h.of_suffix ⟨['"'], rfl⟩)
      rw [Text.hasHalf_eq_false_iff, String.toList_ofList]
      exact fun c hmem => hbefore c (List.mem_reverse.mp hmem)
    · next heq _ => cases heq
    · next steps heq _ =>
      cases heq
      exact (character?_yields h).bind fun c rest hc hrest => ih (Text.unicode_cons.mpr ⟨hc, hbefore⟩) hrest

/-! ### Numbers -/

/-- Digits stand for a number below the power of the base that they are many. -/
theorem ofDigits_lt {base : Nat} {values : List Nat} (h : ∀ value ∈ values, value < base) :
    Number.Literal.ofDigits base values < base ^ values.length := by
  induction values using List.reverseRecOn with
  | nil => simp [Number.Literal.ofDigits]
  | append_singleton values last ih =>
    have hvalues := ih fun value hmem => h value (List.mem_append_left _ hmem)
    have hlast : last < base := h last (by simp)
    simp only [Number.Literal.ofDigits, List.foldl_append, List.foldl_cons, List.foldl_nil, List.length_append,
      List.length_singleton] at hvalues ⊢
    calc _ < List.foldl (fun total digit => total * base + digit) 0 values * base + base := by omega
      _ = (List.foldl (fun total digit => total * base + digit) 0 values + 1) * base := by rw [Nat.succ_mul]
      _ ≤ base ^ values.length * base := Nat.mul_le_mul_right _ hvalues
      _ = base ^ (values.length + 1) := (Nat.pow_succ ..).symm

theorem decimalValue_lt_of_mem {ds : List Char} {value : Nat} (h : value ∈ Number.Literal.decimalValues ds) :
    value < 10 := by
  obtain ⟨c, -, hvalue⟩ := List.mem_filterMap.mp h
  exact Text.decimalValue?_eq_some_lt hvalue

/-- No more digits than an integer may have stand for an integer that is small enough. -/
theorem natAbs_negateIf_lt {ds : List Char} (h : ds.length ≤ Number.maximalDigits) (negative : Bool) :
    (Number.negateIf negative (Number.Literal.ofDigits 10 (Number.Literal.decimalValues ds))).natAbs <
      10 ^ Number.maximalDigits := by
  have hnat : (Number.negateIf negative (Number.Literal.ofDigits 10 (Number.Literal.decimalValues ds))).natAbs =
      Number.Literal.ofDigits 10 (Number.Literal.decimalValues ds) := by
    cases negative <;> simp [Number.negateIf]
  rw [hnat]
  calc Number.Literal.ofDigits 10 (Number.Literal.decimalValues ds)
      < 10 ^ (Number.Literal.decimalValues ds).length := ofDigits_lt fun _ => decimalValue_lt_of_mem
    _ ≤ 10 ^ Number.maximalDigits := Nat.pow_le_pow_right (by decide) ((List.length_filterMap_le _ _).trans h)

theorem digits_append (cs : List Char) : (digits cs).1 ++ (digits cs).2 = cs := by
  simp [digits]

theorem unicode_digits (h : Unicode cs) : Unicode (digits cs).2 :=
  h.of_suffix ⟨_, digits_append cs⟩

theorem fraction?_yields (h : Unicode cs) : Yields (fun _ => True) (fraction? cs) := by
  unfold fraction?
  split
  · next rest =>
    have hrest : Unicode rest := h.of_suffix ⟨['.'], rfl⟩
    split
    · exact .none
    · exact .some trivial (unicode_digits hrest)
  · exact .some trivial h

theorem unicode_signAndRest (h : Unicode cs) : Unicode (Number.Literal.signAndRest cs).2 := by
  unfold Number.Literal.signAndRest
  split
  · exact h.of_suffix ⟨['-'], rfl⟩
  · exact h.of_suffix ⟨['+'], rfl⟩
  · exact h

theorem exponent?_yields (h : Unicode cs) : Yields (fun _ => True) (exponent? cs) := by
  unfold exponent?
  split
  · next mark rest =>
    have hrest : Unicode rest := h.of_suffix ⟨[mark], rfl⟩
    refine .ite (fun _ => ?_) fun _ => .some trivial h
    have hdigits := unicode_digits (unicode_signAndRest hrest)
    dsimp only
    split
    · exact .none
    · next ds left heq => exact .some trivial (by rwa [heq] at hdigits)
  · exact .some trivial h

/-- The value of a number is legible wherever it stands. -/
theorem number?_yields {negative : Bool} (h : Unicode cs) :
    Yields (fun v => ∃ j, v = Datum.ofJson j ∧ ∀ depth, Legible depth j) (number? .document negative cs) := by
  unfold number?
  dsimp only
  refine .ite (fun _ => .none) fun _ => ?_
  refine (fraction?_yields (unicode_digits h)).bind fun fraction rest _ hrest => ?_
  refine (exponent?_yields hrest).bind fun exponent rest _ hrest => ?_
  refine .ite (fun _ => .none) fun hdigits => ?_
  refine .ite (fun hinteger => ?_) fun _ => .some ⟨.float _, rfl, fun _ => .float _⟩ hrest
  have hlength : (digits cs).1.length ≤ Number.maximalDigits := by
    simpa [hinteger] using hdigits
  exact .some ⟨.int _, rfl, fun _ => .int (natAbs_negateIf_lt hlength negative)⟩ hrest

theorem word?_yields {word : String} {j : Json} (hj : ∀ depth, Legible depth j) (h : Unicode cs) :
    Yields (fun v => ∃ j, v = Datum.ofJson j ∧ ∀ depth, Legible depth j)
      ((after? word cs).map (Datum.ofJson j, ·)) := by
  cases hafter : after? word cs with
  | none => exact .none
  | some rest => exact .some ⟨j, rfl, hj⟩ (after?_leaves h hafter)

theorem scalar?_yields (h : Unicode cs) :
    Yields (fun v => ∃ j, v = Datum.ofJson j ∧ ∀ depth, Legible depth j) (scalar? .document cs) := by
  unfold scalar?
  split
  · exact word?_yields (j := .null) (fun _ => .null) h
  · exact word?_yields (j := .bool true) (fun _ => .bool true) h
  · exact word?_yields (j := .bool false) (fun _ => .bool false) h
  · exact word?_yields (j := .float Number.notANumber) (fun _ => .float _) h
  · exact word?_yields (j := .float Number.positiveInfinity) (fun _ => .float _) h
  · exact word?_yields (j := .float (-Number.positiveInfinity)) (fun _ => .float _) (h.of_suffix ⟨['-'], rfl⟩)
  · exact number?_yields (h.of_suffix ⟨['-'], rfl⟩)
  · exact number?_yields h

/-! ### Values -/

theorem separator?_yields {closing : Char} (h : Unicode cs) : Yields (fun _ => True) (separator? closing cs) := by
  unfold separator?
  have hskip := unicode_skipSpaces h
  split
  · next rest heq => exact .some trivial ((heq ▸ hskip).of_suffix ⟨[','], rfl⟩)
  · next c rest _ heq =>
    exact .ite (fun _ => .some trivial ((heq ▸ hskip).of_suffix ⟨[c], rfl⟩)) fun _ => .none
  · exact .none

/-- Values read with a bound on the steps are legible at their depth. -/
structure LegibleWithin (steps : Nat) : Prop where
  value : ∀ {depth cs}, Unicode cs →
    Yields (fun v => ∃ j, v = Datum.ofJson j ∧ Legible depth j) (value? .document steps depth cs)
  items : ∀ {depth cs}, Unicode cs →
    Yields (fun vs => ∃ js, vs = Datum.ofItems js ∧ ∀ j ∈ js, Legible depth j) (items? .document steps depth cs)
  members : ∀ {depth cs}, Unicode cs →
    Yields (fun ms => ∃ js, ms = Datum.ofMembers js ∧
      ∀ member ∈ js, Text.hasHalf member.1 = false ∧ Legible depth member.2) (members? .document steps depth cs)

namespace LegibleWithin

variable {steps depth : Nat}

/-- A value is legible if what it is made of is, which is read with a step less. -/
theorem value_succ (ih : LegibleWithin steps) (h : Unicode cs) :
    Yields (fun v => ∃ j, v = Datum.ofJson j ∧ Legible depth j) (value? .document (steps + 1) depth cs) := by
  have hskip := unicode_skipSpaces h
  unfold value?
  split
  · next rest heq =>
    refine (stringBody_yields (List.forall_mem_nil _) ((heq ▸ hskip).of_suffix ⟨['"'], rfl⟩)).map ?_
    exact fun s rest hs hrest => ⟨⟨.string s, rfl, .string hs⟩, hrest⟩
  · next rest heq =>
    have hinside := unicode_skipSpaces (Text.unicode_cons.mp (heq ▸ hskip)).2
    split
    · next rest heq =>
      exact .some ⟨.list [], rfl, .noItems⟩ ((heq ▸ hinside).of_suffix ⟨[']'], rfl⟩)
    · exact .none
    · next depth _ =>
      refine (ih.items hinside).map ?_
      rintro _ rest ⟨js, rfl, hjs⟩ hrest
      exact ⟨⟨.list js, rfl, .list hjs⟩, hrest⟩
  · next rest heq =>
    have hinside := unicode_skipSpaces (Text.unicode_cons.mp (heq ▸ hskip)).2
    split
    · next rest heq =>
      exact .some ⟨.object [], rfl, .noMembers⟩ ((heq ▸ hinside).of_suffix ⟨['\x7d'], rfl⟩)
    · exact .none
    · next depth _ =>
      refine (ih.members hinside).map ?_
      rintro _ rest ⟨js, rfl, hjs⟩ hrest
      exact ⟨⟨.object js, rfl, Legible.object_iff.mpr hjs⟩, hrest⟩
  · intro v rest hread
    obtain ⟨⟨j, rfl, hj⟩, hrest⟩ := scalar?_yields hskip v rest hread
    exact ⟨⟨j, rfl, hj depth⟩, hrest⟩

theorem items_succ (ih : LegibleWithin steps) (h : Unicode cs) :
    Yields (fun vs => ∃ js, vs = Datum.ofItems js ∧ ∀ j ∈ js, Legible depth j)
      (items? .document (steps + 1) depth cs) := by
  unfold items?
  refine (ih.value h).bind ?_
  rintro _ rest ⟨j, rfl, hj⟩ hrest
  refine (separator?_yields hrest).bind fun more rest _ hrest => .ite (fun _ => ?_) fun _ => ?_
  · refine (ih.items hrest).bind ?_
    rintro _ rest ⟨js, rfl, hjs⟩ hrest
    exact .some ⟨j :: js, rfl, List.forall_mem_cons.mpr ⟨hj, hjs⟩⟩ hrest
  · exact .some ⟨[j], rfl, by simpa using hj⟩ hrest

theorem members_succ (ih : LegibleWithin steps) (h : Unicode cs) :
    Yields (fun ms => ∃ js, ms = Datum.ofMembers js ∧
      ∀ member ∈ js, Text.hasHalf member.1 = false ∧ Legible depth member.2)
      (members? .document (steps + 1) depth cs) := by
  have hskip := unicode_skipSpaces h
  unfold members?
  split
  · next rest heq =>
    refine (stringBody_yields (List.forall_mem_nil _) ((heq ▸ hskip).of_suffix ⟨['"'], rfl⟩)).bind ?_
    intro name rest hname hrest
    have hcolon := unicode_skipSpaces hrest
    dsimp only
    split
    · next rest heq =>
      refine (ih.value ((heq ▸ hcolon).of_suffix ⟨[':'], rfl⟩)).bind ?_
      rintro _ rest ⟨j, rfl, hj⟩ hrest
      refine (separator?_yields hrest).bind fun more rest _ hrest => .ite (fun _ => ?_) fun _ => ?_
      · refine (ih.members hrest).bind ?_
        rintro _ rest ⟨js, rfl, hjs⟩ hrest
        exact .some ⟨(name, j) :: js, rfl, List.forall_mem_cons.mpr ⟨⟨hname, hj⟩, hjs⟩⟩ hrest
      · exact .some ⟨[(name, j)], rfl, by simpa using ⟨hname, hj⟩⟩ hrest
    · exact .none
  · exact .none

end LegibleWithin

theorem legibleWithin (steps : Nat) : LegibleWithin steps := by
  induction steps with
  | zero =>
    refine ⟨fun _ => ?_, fun _ => ?_, fun _ => ?_⟩
    · unfold value?
      exact .none
    · unfold items?
      exact .none
    · unfold members?
      exact .none
  | succ steps ih => exact ⟨ih.value_succ, ih.items_succ, ih.members_succ⟩

end Reader

/-- The data that the text of a document holds is a value that JSON text may hold. -/
theorem exists_legible_of_read? {text : String} {data : Datum} (hhalf : Text.hasHalf text = false)
    (h : read? .document text = some data) :
    ∃ j, data = Datum.ofJson j ∧ Legible Dialect.document.depth j := by
  unfold read? at h
  obtain ⟨⟨v, rest⟩, hread, hrest⟩ := Option.bind_eq_some_iff.mp h
  obtain ⟨hlegible, -⟩ := (Reader.legibleWithin _).value (Text.hasHalf_eq_false_iff.mp hhalf) v rest hread
  dsimp only at hrest
  split at hrest
  · cases hrest
    exact hlegible
  · cases hrest

/-! ### Unicode text -/

theorem unicodeItems?_eq_self {items : List Json} (h : ∀ item ∈ items, unicode? item = some item) :
    unicodeItems? items = some items := by
  induction items with
  | nil => rfl
  | cons item rest ih =>
    obtain ⟨hitem, hrest⟩ := List.forall_mem_cons.mp h
    simp [unicodeItems?, hitem, ih hrest]

theorem unicodeMembers?_eq_self {members : List (String × Json)}
    (hnames : ∀ member ∈ members, Text.hasHalf member.1 = false)
    (h : ∀ member ∈ members, unicode? member.2 = some member.2) : unicodeMembers? members = some members := by
  induction members with
  | nil => rfl
  | cons member rest ih =>
    obtain ⟨hname, hnames⟩ := List.forall_mem_cons.mp hnames
    obtain ⟨hmember, hrest⟩ := List.forall_mem_cons.mp h
    simp [unicodeMembers?, Text.lossy_eq_self hname, hmember, ih hnames hrest]

/-- A legible value is Unicode text as it is. -/
theorem unicode?_of_legible {depth : Nat} {v : Json} (h : Legible depth v) : unicode? v = some v := by
  induction h with
  | string h => exact (unicode?_string _).mpr h
  | noItems => rfl
  | noMembers => rfl
  | list _ ih =>
    simp [unicode?, unicodeItems?_eq_self ih]
  | object hnames _ ih =>
    simp [unicode?, unicodeMembers?_eq_self hnames ih]
  | _ => rfl

end Json
end DesignTokens
