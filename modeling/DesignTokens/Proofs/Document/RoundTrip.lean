import DesignTokens.Proofs.Document.Records
import DesignTokens.Proofs.Json.Writing
import DesignTokens.Proofs.Resolution.Calls
import DesignTokens.Brand

/-!
# Documents dumped and decoded again

What a document is written as is decoded to the document, up to the mark of empty groups. Three things have to come
together. Every entry is decoded from what it is written as, because decoding has normalised it before
(`Kind.faithful_entry`). The text that is written is read as what was written, because everything in the document came
from JSON text: it is Unicode, its integers are not too long, and it is nested no deeper than that text was, or by the
few levels that any entry needs (`Legible`). And the document has no groups any more, so nothing is merged again.

Names are checked before groups are merged, so a document may hold names that decoding refuses; such documents are left
out, and so are doubles that have no text.

* `decode_toJson` — the JSON of a document is decoded to the document if its entries are.
* `legible_toJson` — what is decoded from legible data is legible when written.
* `dump_reads_back` — a document from JSON text that is dumped, after whatever was done with it, is decoded again.
-/

namespace DesignTokens

open Datum (Context ofJson ofMembers)
open Json (Legible)
open Kind (hasSpace)

/-! ### The JSON of a document -/

namespace Document

theorem sectionJson_eq (d : Document) (k : Kind) :
    d.sectionJson k = .object ((d.entries k).toList.map fun pair => (pair.1, k.entryJson true pair.2)) := rfl

/-- The members that a document is written with. -/
def jsonMembers (d : Document) : List (String × Json) :=
  ("version", .orNull .int d.version) :: Kind.all.map fun k => (k.sectionName, d.sectionJson k)

theorem toJson_eq (d : Document) : d.toJson = .object d.jsonMembers := rfl

theorem field?_jsonMembers (d : Document) (k : Kind) :
    Record.field? (ofMembers d.jsonMembers) k.fieldName = some (k.sectionName, ofJson (d.sectionJson k)) := by
  cases k <;> rfl

theorem decodeVersion_jsonMembers (d : Document) : decodeVersion (ofMembers d.jsonMembers) = .ok d.version := by
  have hfield : Record.field? (ofMembers d.jsonMembers) ⟨"version", []⟩ =
      some ("version", ofJson (.orNull .int d.version)) := rfl
  rw [decodeVersion, Record.getD, hfield]
  cases d.version <;> rfl

/-- The entries of a kind are decoded from the section that they are written as. -/
theorem decodeEntries_sectionJson {c : Context} {d : Document} {k : Kind}
    (hagain : ∀ pair ∈ (d.entries k).toList, k.decodeEntry c (ofJson (k.entryJson true pair.2)) = .ok pair.2)
    (hspace : k.spacedName? (d.entries k) = none) :
    k.decodeEntries c (ofJson (d.sectionJson k)) = .ok (d.entries k) := by
  have hmapping : (ofJson (d.sectionJson k)).mapping c (k.decodeEntry c) = .ok (d.entries k) := by
    rw [Datum.mapping, Datum.whole_ofJson, sectionJson_eq]
    exact Datum.namedValues_again hagain
  rw [Kind.decodeEntries, hmapping]
  dsimp only [Checked.andThen]
  rw [hspace]

/-- A document is decoded from what it is written as, if its entries are. -/
theorem decode_toJson {c : Context} {d : Document} (hdepth : 0 < c.depth)
    (hagain : ∀ k, ∀ pair ∈ (d.entries k).toList,
      k.decodeEntry { c with depth := c.depth - 1 } (ofJson (k.entryJson true pair.2)) = .ok pair.2)
    (hspace : ∀ k : Kind, k.spacedName? (d.entries k) = none) :
    decode c (ofJson d.toJson) = .ok { d with hasEmptyGroups := false } := by
  obtain ⟨depth, hdepth⟩ := Nat.exists_eq_add_of_le' hdepth
  rw [decode, hdepth, decodeWithin_eq_ok_iff]
  have hsections : Sections.decode { c with depth } (ofMembers d.jsonMembers) = .ok d.sections := by
    refine Sections.decode_eq_ok_iff.mpr fun k => ?_
    rw [Record.getD, field?_jsonMembers]
    have hentries := decodeEntries_sectionJson (by simpa [hdepth] using hagain k) (hspace k)
    exact Checked.below_eq_ok_iff.mpr hentries
  exact ⟨{ c with depth }, ofMembers d.jsonMembers, d.version, d.sections, none, rfl, rfl, decodeVersion_jsonMembers d,
    hsections, rfl, rfl⟩

end Document

/-! ### Legible data gives legible documents -/

namespace Scalar

open Number (maximalDigits)

theorem natAbs_lt_of_wholeNumber? {cs : List Char} {n : Int} (h : wholeNumber? cs = some (.ok n)) :
    n.natAbs < 10 ^ maximalDigits := by
  have hpos : 0 < 10 ^ maximalDigits := Nat.pow_pos (by decide)
  unfold wholeNumber? at h
  -- behind a minus as without one
  split at h
  split at h
  · split at h
    · cases h
      exact hpos
    · cases h
  · dsimp only at h
    split at h
    · cases h
    · next hdigits =>
      split at h
      · cases h
      · cases h
        exact Json.Reader.natAbs_negateIf_lt (Nat.not_lt.mp hdigits) _

theorem natAbs_lt_of_integerOfText {text : String} {n : Int} (h : integerOfText text = .ok n) :
    n.natAbs < 10 ^ maximalDigits := by
  unfold integerOfText at h
  dsimp only at h
  generalize hread : (wholeNumber? text.toList).or _ = read at h
  cases read with
  | none => cases h
  | some checked =>
    cases h
    rcases Option.or_eq_some_iff.mp hread with hplain | ⟨-, htidy⟩
    · exact natAbs_lt_of_wholeNumber? hplain
    · obtain ⟨cs, -, hcs⟩ := Option.bind_eq_some_iff.mp htidy
      exact natAbs_lt_of_wholeNumber? hcs

theorem natAbs_lt_of_integerOfFloat {x : Float} {n : Int} (h : integerOfFloat x = .ok n) : n.natAbs < Nat.pow 2 63 := by
  unfold integerOfFloat at h
  split at h
  · cases h
  split at h
  · cases h
  split at h
  · split at h
    · next hword =>
      cases h
      exact hword
    · cases h
  · cases h

/-- An integer that is read from JSON text has at most as many digits as an integer may have. -/
theorem natAbs_lt_of_integer {depth : Nat} {j : Json} {n : Int} (h : integer (ofJson j) = .ok n)
    (hj : Legible depth j) : n.natAbs < 10 ^ maximalDigits := by
  have hword : Nat.pow 2 63 < 10 ^ maximalDigits :=
    calc Nat.pow 2 63 < 10 ^ 20 := by decide
      _ ≤ 10 ^ maximalDigits := Nat.pow_le_pow_right (by decide) (by decide)
  cases hj with
  | bool b =>
    cases h
    cases b
    · exact Nat.lt_trans (by decide : 0 < Nat.pow 2 63) hword
    · exact Nat.lt_trans (by decide : 1 < Nat.pow 2 63) hword
  | int hn =>
    cases h
    exact hn
  | float x => exact Nat.lt_trans (natAbs_lt_of_integerOfFloat h) hword
  | @string _ s _ =>
    simp only [ofJson, integer, ofText] at h
    split at h
    · cases h
    · exact natAbs_lt_of_integerOfText h
  | _ => cases h

end Scalar

namespace Json.Legible

/-- A member of an object has room for one list or object less than the object. -/
theorem member {n : Nat} {members : List (String × Json)} (h : Legible n (.object members)) {member : String × Json}
    (hmem : member ∈ members) : ∃ m, n = m + 1 ∧ Text.hasHalf member.1 = false ∧ Legible m member.2 := by
  cases h with
  | noMembers => cases hmem
  | object hnames hmembers => exact ⟨_, rfl, hnames member hmem, hmembers member hmem⟩

end Json.Legible

namespace Kind

/-- An entry that was decoded from a value with room for so many lists and objects, inside documents that may be so
deep. -/
def Decoded (depth room : Nat) (k : Kind) (entry : k.Entry) : Prop :=
  ∃ c j, k.decodeEntry c (ofJson j) = .ok entry ∧ c.depth < depth ∧ Legible room j

/-- An entry of a section is decoded from a member of it. -/
theorem exists_of_mem_decodeEntries {c : Context} {k : Kind} {j : Json} {entries : Mapping k.Entry}
    (h : k.decodeEntries c (ofJson j) = .ok entries) {pair : String × k.Entry} (hmem : pair ∈ entries.toList) :
    ∃ members value, j = .object members ∧ (pair.1, value) ∈ members ∧
      k.decodeEntry c (ofJson value) = .ok pair.2 := by
  rw [decodeEntries, Checked.andThen_eq_ok_iff] at h
  obtain ⟨read, hread, hchecked⟩ := h
  have hsame : read = entries := by
    split at hchecked
    · cases hchecked
    · exact Checked.ok.inj hchecked
  subst hsame
  rw [Datum.mapping, Datum.whole_ofJson] at hread
  cases j with
  | object members =>
    obtain ⟨value, hvalue, hentry⟩ := Datum.exists_of_mem_namedValues hread hmem
    exact ⟨members, value, rfl, hvalue, hentry⟩
  | _ => cases hread

end Kind

/-- An entry of a record is decoded from a member of one of its fields. -/
theorem Sections.exists_of_mem_decode {c : Context} {members : List (String × Json)} {s : Sections}
    (h : decode c (ofMembers members) = .ok s) {k : Kind} {pair : String × k.Entry}
    (hmem : pair ∈ (s.entries k).toList) :
    ∃ spelling section_ value, (spelling, Json.object section_) ∈ members ∧ (pair.1, value) ∈ section_ ∧
      k.decodeEntry c (ofJson value) = .ok pair.2 := by
  have hfield := decode_eq_ok_iff.mp h k
  unfold Record.getD at hfield
  split at hfield
  · next spelling value hgiven =>
    obtain ⟨j, hj, rfl⟩ := Record.exists_of_field? hgiven
    obtain ⟨entries, value, rfl, hvalue, hentry⟩ :=
      Kind.exists_of_mem_decodeEntries (Checked.below_eq_ok_iff.mp hfield) hmem
    exact ⟨spelling, entries, value, hj, hvalue, hentry⟩
  · rw [← Checked.ok.inj hfield] at hmem
    cases hmem

namespace Document

/-- Every declaration in legible data is decoded from a legible value, and the name that it gets in the merge is
Unicode text. -/
theorem decoded_of_declares {depth room : Nat} {c : Context} {j : Json} {tree : Outline}
    (h : outlineWithin depth c (ofJson j) = .ok tree) (hj : Legible room j) {k : Kind} {path : List String}
    {name : String} {entry : k.Entry} (hdeclares : tree.Declares k path name entry) :
    Text.hasHalf (Outline.dotted path name) = false ∧ ∃ inner, inner + 2 ≤ room ∧ k.Decoded depth inner entry := by
  induction depth generalizing room c j tree path with
  | zero => cases h
  | succ depth ih =>
    obtain ⟨inside, r, version, own, groups, hinside, hrecord, -, hown, hgroups, rfl⟩ := outlineWithin_eq_ok_iff.mp h
    rw [Datum.insideDocument?_ofJson] at hinside
    cases hinside
    obtain ⟨members, rfl, rfl⟩ := Datum.record_ofJson hrecord
    cases hdeclares with
    | own hmem =>
      obtain ⟨spelling, entries, value, hsection, hvalue, hentry⟩ := Sections.exists_of_mem_decode hown hmem
      obtain ⟨outer, rfl, -, hlegible⟩ := hj.member hsection
      obtain ⟨inner, rfl, hname, hlegible⟩ := hlegible.member hvalue
      exact ⟨hname, inner, Nat.le_refl _, _, value, hentry, Nat.lt_succ_self depth, hlegible⟩
    | @inside _ _ _ _ group _ path _ _ hgroup hinner =>
      cases groups with
      | none => cases hgroup
      | some groups =>
        obtain ⟨⟨spelling, value⟩, hmember, -, hpairs⟩ := Record.exists_of_optional hgroups
        obtain ⟨given, hgiven, hmembers⟩ := Datum.pairs_eq_ok_iff.mp hpairs
        rw [Datum.whole_ofJson] at hgiven
        cases value with
        | object declared =>
          cases hgiven
          rw [Datum.ofMembers_eq_map, Datum.Members, List.forall₂_map_left_iff] at hmembers
          obtain ⟨⟨key, value⟩, hvalue, hkey, hread⟩ := exists_mem_of_forall₂ hmembers hgroup
          cases hkey
          obtain ⟨outer, rfl, -, hlegible⟩ := hj.member hmember
          obtain ⟨room, rfl, hgroupName, hlegible⟩ := hlegible.member hvalue
          obtain ⟨hname, inner, hroom, c, j, hentry, hdepth, hlegible⟩ := ih hread hlegible hinner
          refine ⟨?_, inner, by omega, c, j, hentry, Nat.lt_succ_of_lt hdepth, hlegible⟩
          have hdot : Text.hasHalf "." = false := rfl
          rw [Outline.dotted, List.foldr_cons, Text.hasHalf_append, Text.hasHalf_append, hgroupName, hdot]
          exact hname
        | _ => cases hgiven

/-- The entries of a document that is decoded from legible data are decoded from legible values. -/
theorem decoded_of_mem {depth room : Nat} {c : Context} {j : Json} {d : Document}
    (h : decodeWithin depth c (ofJson j) = .ok d) (hj : Legible (room + 2) j) {k : Kind} {pair : String × k.Entry}
    (hmem : pair ∈ (d.entries k).toList) : Text.hasHalf pair.1 = false ∧ k.Decoded depth room pair.2 := by
  obtain ⟨tree, htree, hcovers⟩ := exists_outline_of_decodeWithin h
  obtain ⟨path, own, hdeclares, hname⟩ := hcovers k pair.1 pair.2 hmem
  obtain ⟨hhalf, inner, hroom, c, j, hentry, hdepth, hlegible⟩ := decoded_of_declares htree hj hdeclares
  exact ⟨hname ▸ hhalf, c, j, hentry, hdepth, hlegible.mono (by omega)⟩

theorem legible_version {depth room n : Nat} {c : Context} {j : Json} {d : Document}
    (h : decodeWithin depth c (ofJson j) = .ok d) (hj : Legible room j) : Legible n (.orNull .int d.version) := by
  cases depth with
  | zero => cases h
  | succ depth =>
    obtain ⟨inside, r, version, own, groups, -, hrecord, hversion, -, -, hassemble⟩ := decodeWithin_eq_ok_iff.mp h
    obtain ⟨members, rfl, rfl⟩ := Datum.record_ofJson hrecord
    rw [(assemble_eq_ok_iff.mp hassemble).1]
    unfold decodeVersion Record.getD at hversion
    split at hversion
    · next spelling value hgiven =>
      obtain ⟨value, hvalue, rfl⟩ := Record.exists_of_field? hgiven
      obtain ⟨_, -, -, hlegible⟩ := hj.member hvalue
      rw [Checked.below_eq_ok_iff] at hversion
      unfold Scalar.optional at hversion
      split at hversion
      · cases hversion
        exact .null
      · obtain ⟨n, hinteger, rfl⟩ := Checked.map_eq_ok_iff.mp hversion
        exact .int (Scalar.natAbs_lt_of_integer hinteger hlegible)
    · cases hversion
      exact .int (Nat.pow_pos (by decide))

/-- A document that is decoded from legible data is legible. -/
theorem legible_toJson {depth room : Nat} {c : Context} {j : Json} {d : Document}
    (h : decodeWithin depth c (ofJson j) = .ok d) (hj : Legible (room + Kind.leastRoom + 2) j) :
    Legible (room + Kind.leastRoom + 2) d.toJson := by
  rw [toJson_eq, jsonMembers]
  have hversion : Text.hasHalf "version" = false := rfl
  have hsection (k : Kind) : Text.hasHalf k.sectionName = false := by cases k <;> rfl
  refine Legible.object_iff.mpr (List.forall_mem_cons.mpr
    ⟨⟨hversion, legible_version h hj⟩, List.forall_mem_map.mpr fun k _ => ⟨hsection k, ?_⟩⟩)
  rw [sectionJson_eq]
  refine Legible.object_iff.mpr (List.forall_mem_map.mpr fun pair hmem => ?_)
  obtain ⟨hname, c, j, hentry, -, hlegible⟩ := decoded_of_mem h hj hmem
  exact ⟨hname, (Kind.faithful_entry (Nat.le_refl c.depth) k).legible hentry hlegible⟩

/-! ### Dumping and decoding -/

/-- The doubles that a document holds, in layout rules and in free-form values. -/
def Holds (d : Document) (x : Float) : Prop := x ∈ d.toJson.floats

/-- A document that comes from JSON text is decoded again from what it is written as, groups apart. -/
theorem ofText_write {text : String} {d : Document} (h : ofText text = .ok d)
    (hfloats : ∀ x, d.Holds x → Json.ReadsBack x) (hnames : ∀ k : Kind, k.spacedName? (d.entries k) = none)
    (a : Json.Arrangement) :
    d.toJson.unicode? = some d.toJson ∧ ofText (d.toJson.write a) = .ok { d with hasEmptyGroups := false } := by
  unfold ofText at h
  split at h
  · cases h
  · next hhalf =>
    split at h
    · next data hread =>
      obtain ⟨j, rfl, hj⟩ := Json.exists_legible_of_read? (Bool.not_eq_true _ ▸ hhalf) hread
      have hlegible : Legible Json.Dialect.document.depth d.toJson := legible_toJson h hj
      have hagain (k : Kind) (pair : String × k.Entry) (hmem : pair ∈ (d.entries k).toList) :
          k.decodeEntry { depth := 253 } (ofJson (k.entryJson true pair.2)) = .ok pair.2 := by
        obtain ⟨-, c, value, hentry, hdepth, -⟩ := decoded_of_mem h hj hmem
        exact (Kind.faithful_entry (Nat.le_of_lt_succ hdepth) k).again hentry
      refine ⟨Json.unicode?_of_legible hlegible, ?_⟩
      rw [ofText_of_read? (Json.hasHalf_write hlegible a) (Json.read?_write hlegible hfloats a)]
      exact decode_toJson (by decide) hagain hnames
    · cases h

end Document

namespace Operation

/-- The document in use after an operation that may end in a fault: a call then keeps what it has loaded so far. -/
def attempt (u : Usage) : Operation → Usage
  | .call c =>
    match c.run u.reading u.progress with
    | .ok _ progress | .error _ progress => { u with progress }
  | operation => (operation.perform u).toOption.getD u

/-- No operation changes the document. -/
theorem document_attempt (u : Usage) (operation : Operation) :
    (operation.attempt u).reading.document = u.reading.document := by
  cases operation with
  | call c =>
    unfold attempt
    dsimp only
    split <;> rfl
  | dump indent =>
    change (((u.reading.document.dump indent).map fun _ => u).toOption.getD u).reading.document = _
    cases u.reading.document.dump indent <;> rfl
  | _ => rfl

theorem document_attempts (u : Usage) (operations : List Operation) :
    (operations.foldl attempt u).reading.document = u.reading.document := by
  induction operations generalizing u with
  | nil => rfl
  | cons operation rest ih => rw [List.foldl_cons, ih, document_attempt]

end Operation

namespace Document

/-- The arrangement of dumped text. -/
def arrangement : Option Nat → Json.Arrangement
  | some width => .indented width 0
  | none => .compact

theorem dump_eq_ok {d : Document} (h : d.toJson.unicode? = some d.toJson) (indent : Option Nat) :
    d.dump indent = .ok (d.toJson.write (arrangement indent)) := by
  rw [dump.eq_def, h]
  cases indent <;> rfl

/-- Decoding undoes dumping. Whatever was done with a document that comes from JSON text, it can be dumped; what is
dumped decodes to a document with the same version and the same entries in the same order, which is in use without a
loaded cell and is dumped as the same text. The doubles must be finite and must be read from the text that they are
written as, and the names must be such as decoding accepts: the merge of groups does not check the ones it forms. -/
theorem dump_reads_back (text : String) (document : Document) (h : ofText text = .ok document)
    (hfinite : ∀ x, document.Holds x → x.isFinite = true)
    (hnumbers : ∀ x, document.Holds x → Json.read? .document (Number.Layout.dump.text x) = some (.float x))
    (hnames : ∀ k : Kind, k.spacedName? (document.entries k) = none) (surroundings : Surroundings)
    (operations : List Operation) (indent : Option Nat) :
    let u := operations.foldl Operation.attempt ⟨⟨document, surroundings⟩, {}⟩
    ∃ dumped again, u.reading.document.dump indent = .ok dumped ∧ ofText dumped = .ok again ∧
      again.version = document.version ∧ (∀ k, again.entries k = document.entries k) ∧
      (∀ brand : Brand, ∃ installed, (brand.install again).installed = some installed ∧
        installed.document = again ∧ ∀ a name, installed.store.cell a name = .fresh) ∧
      ∀ indent', again.dump indent' = u.reading.document.dump indent' := by
  intro u
  obtain ⟨hunicode, hagain⟩ := ofText_write h (fun x hx => ⟨hfinite x hx, hnumbers x hx⟩) hnames (arrangement indent)
  have hdocument : u.reading.document = document := Operation.document_attempts _ operations
  rw [hdocument]
  exact ⟨_, { document with hasEmptyGroups := false }, dump_eq_ok hunicode indent, hagain, rfl, fun k => rfl,
    fun brand => ⟨_, rfl, rfl, fun a name => by cases a <;> rfl⟩, fun indent' => rfl⟩

/-- A document with a layout rule in a group, whose multiplier is given as text and whose constant is left out. -/
def laidOutText : String :=
  "\x7b\"groups\": \x7b\"g\": \x7b\"placements\": \x7b\"p\": \x7b\"relative_dimensions\": [" ++
    "\x7b\"dimension\": \"width\", \"relation\": \"LE\", \"relativeTo\": \"superview\", \"multiplier\": \"1.5\"\x7d" ++
    "]\x7d\x7d\x7d\x7d\x7d"

def laidOutDocument : Document where
  version := some 0
  sections :=
    { placements := ⟨[("g.p", {
        placementRules := none
        auxiliaryViews := none
        metricNames := none
        relativeDimensions := some [⟨.width, .lessThanOrEqual, "superview", ⟨1.5, none⟩, ⟨0.0, none⟩⟩]
        contentMode := none })], by decide⟩ }
  hasEmptyGroups := false

theorem ofText_laidOutText : ofText laidOutText = .ok laidOutDocument := by
  have hhalf : Text.hasHalf laidOutText = false := by cbv
  have hread : Json.read? .document laidOutText = some (.map [(.string "groups", .map [(.string "g", .map
      [(.string "placements", .map [(.string "p", .map [(.string "relative_dimensions", .list [.map
        [(.string "dimension", .string "width"), (.string "relation", .string "LE"),
          (.string "relativeTo", .string "superview"), (.string "multiplier", .string "1.5")]])])])])])]) := by cbv
  rw [ofText_of_read? hhalf hread]
  rfl

theorem eq_of_holds_laidOutDocument {x : Float} (h : laidOutDocument.Holds x) : x = 1.5 ∨ x = 0.0 := by
  have hfloats : laidOutDocument.toJson.floats = [1.5, 0.0] := rfl
  simpa [Holds, hfloats] using h

theorem isFinite_of_holds_laidOutDocument (x : Float) (h : laidOutDocument.Holds x) : x.isFinite = true := by
  rcases eq_of_holds_laidOutDocument h with rfl | rfl <;> decide

theorem read?_text_of_holds_laidOutDocument (x : Float) (h : laidOutDocument.Holds x) :
    Json.read? .document (Number.Layout.dump.text x) = some (.float x) := by
  have hmultiplier : Number.Layout.dump.text 1.5 = "1.5" := by decide
  have hconstant : Number.Layout.dump.text 0.0 = "0.0" := by decide
  rcases eq_of_holds_laidOutDocument h with rfl | rfl
  · rw [hmultiplier]
    rfl
  · rw [hconstant]
    rfl

theorem spacedName?_laidOutDocument (k : Kind) : k.spacedName? (laidOutDocument.entries k) = none := by
  cases k <;> rfl

/-- A checked document whose layout rule is dumped under its full name, with its relation spelled out and its constant
written down, and is decoded from that. -/
theorem dump_reads_back_laidOut :
    let checked := Operation.attempt ⟨⟨laidOutDocument, ⟨none, .builtIn, .empty⟩⟩, {}⟩ (.call .check)
    ofText laidOutText = .ok laidOutDocument ∧ ∃ dumped again, checked.reading.document.dump none = .ok dumped ∧
      ofText dumped = .ok again ∧ again.entries .placement = laidOutDocument.entries .placement ∧
      again.dump none = .ok dumped := by
  obtain ⟨dumped, again, hdump, hagain, -, hentries, -, hdumps⟩ :=
    dump_reads_back laidOutText laidOutDocument ofText_laidOutText isFinite_of_holds_laidOutDocument
      read?_text_of_holds_laidOutDocument spacedName?_laidOutDocument ⟨none, .builtIn, .empty⟩ [.call .check] none
  exact ⟨ofText_laidOutText, dumped, again, hdump, hagain, hentries .placement, (hdumps none).trans hdump⟩

end Document
end DesignTokens
