import DesignTokens.Proofs.Metric.Evaluation
import DesignTokens.Proofs.Metric.Takes

/-!
# Readers of several metrics

Several values stand in one text between slashes, in a list of texts, or in the text of insets, which is cut at its
first three slashes. The readers go about it differently: one scans the text and stops when it has enough, the others
cut first and read each piece by itself. They agree because of what stands before a slash. A plain word comes to one
value wherever it stands, so that the words after it may as well be read by themselves; any other word takes
everything after it as its own and comes to one value in all, which is too few where a piece is still to follow.

* `Metric.takesEach_iff` — pieces by themselves and the words of the whole.
* `Metric.extract_bounded_iff` — what is asked for is a filter on what there is.
* `Metric.list_agrees_with_text` — a list of texts and the text joined from it.
* `Metric.insets_agree` — insets and four values, and the entries and parameters that hold them.
-/

namespace DesignTokens

open Resolve

namespace Text

theorem withoutSpaces_append (s t : String) : withoutSpaces (s ++ t) = withoutSpaces s ++ withoutSpaces t := by
  simp [withoutSpaces, String.ofList_append]

theorem withoutSpaces_withoutSpaces (s : String) : withoutSpaces (withoutSpaces s) = withoutSpaces s := by
  simp [withoutSpaces]

theorem not_mem_withoutSpaces {c : Char} {s : String} (h : c ∉ s.toList) : c ∉ (withoutSpaces s).toList := by
  rw [withoutSpaces, String.toList_ofList]
  exact fun hmem => h (List.mem_filter.mp hmem).1

end Text

namespace Metric

/-- The words that are not plain. -/
def heads : List String := ["add", "mul", "min", "max", "switch", "named"]

theorem isPlain_iff {word : String} : IsPlain word ↔ word ∉ heads := by
  constructor
  · rintro ⟨hfunction, hmark⟩ hmem
    simp only [heads, List.mem_cons, List.not_mem_nil, or_false] at hmem
    rcases hmem with rfl | rfl | rfl | rfl | rfl | rfl
    all_goals first | exact hmark rfl | cases hfunction
  · intro h
    refine ⟨?_, fun hmark => h (hmark ▸ by decide)⟩
    cases hfunction : MetricFunction.ofWord? word with
    | none => rfl
    | some function =>
      rw [name_of_ofWord? hfunction] at h
      cases function <;> exact absurd (by decide) h

theorem not_mem_of_mem_heads {word : String} (h : word ∈ heads) : '/' ∉ word.toList := by
  simp only [heads, List.mem_cons, List.not_mem_nil, or_false] at h
  rcases h with rfl | rfl | rfl | rfl | rfl | rfl <;> decide

/-- Joined texts have the words of each, those without slash being one word. -/
theorem words_withoutSpaces_ofWords {texts : List String} (h : ∀ text ∈ texts, '/' ∉ text.toList) (last : String) :
    words (Text.withoutSpaces (ofWords (texts ++ [last]))) =
      texts.map Text.withoutSpaces ++ words (Text.withoutSpaces last) := by
  induction texts with
  | nil => rw [List.nil_append, ofWords_singleton, List.map_nil, List.nil_append]
  | cons text rest ih =>
    have hslash : Text.withoutSpaces "/" = "/" := rfl
    have htext := Text.not_mem_withoutSpaces (h text (List.mem_cons_self ..))
    rw [List.cons_append, ofWords_cons (by simp), Text.withoutSpaces_append, Text.withoutSpaces_append, hslash,
      words_append htext, ih fun other hmem => h other (List.mem_cons_of_mem _ hmem)]
    rfl

/-! ### What words come to, one after the other -/

section Takes

variable {lookup : Lookup} {word : String} {rest : List String} {taken : Extraction} {cells cells' : Store}

/-- What comes to one value is a single value. -/
theorem exists_eq_single (h : taken.values.length = 1) : ∃ value dependencies, taken = .single value dependencies := by
  obtain ⟨value, hvalue⟩ := List.length_eq_one_iff.mp h
  exact ⟨value, taken.dependencies, by rw [Extraction.single, ← hvalue]⟩

theorem length_single_append (value : Float) (dependencies : List Dependency) (others : Extraction) :
    (Extraction.single value dependencies ++ others).values.length = others.values.length + 1 := by
  simp [Extraction.values_append, Extraction.single]

theorem Takes.length_le {words : List String} (h : Takes lookup words cells taken cells') :
    taken.values.length ≤ words.length := by
  induction h with
  | done => exact Nat.le_refl 0
  | empty _ ih | literal _ _ _ ih | name _ _ _ _ _ _ ih =>
    rw [length_single_append, List.length_cons]
    exact Nat.succ_le_succ ih
  | named | function => exact Nat.succ_le_succ (Nat.zero_le _)

/-- A word that is not plain takes all that follows, to one value. -/
theorem Takes.length_of_not_plain (h : Takes lookup (word :: rest) cells taken cells') (hword : ¬ IsPlain word) :
    taken.values.length = 1 := by
  cases h with
  | empty => exact absurd isPlain_empty hword
  | literal hnumber => exact absurd (isPlain_of_number hnumber).1 hword
  | name _ hplain => exact absurd hplain hword
  | named | function => rfl

/-- A word by itself comes to something only if it is plain, and then to one value. -/
theorem Takes.alone (h : Takes lookup [word] cells taken cells') : IsPlain word ∧ taken.values.length = 1 := by
  cases h with
  | empty hnil => cases hnil; exact ⟨isPlain_empty, rfl⟩
  | literal hnumber _ hnil => cases hnil; exact ⟨(isPlain_of_number hnumber).1, rfl⟩
  | name _ hplain _ _ _ hnil => cases hnil; exact ⟨hplain, rfl⟩
  | named hne => exact absurd rfl hne
  | function hne => exact absurd rfl hne

/-- The words after a plain word are read by themselves. -/
theorem takes_cons_iff (hword : IsPlain word) :
    Takes lookup (word :: rest) cells taken cells' ↔
      ∃ first cells₁ others, Takes lookup [word] cells first cells₁ ∧ Takes lookup rest cells₁ others cells' ∧
        taken = first ++ others := by
  constructor
  · intro h
    cases h with
    | empty hrest => exact ⟨_, _, _, .empty .done, hrest, by simp⟩
    | literal hnumber hfinite hrest => exact ⟨_, _, _, .literal hnumber hfinite .done, hrest, by simp⟩
    | name hnonempty hplain hnumber hfinds hfinite hrest =>
      exact ⟨_, _, _, .name hnonempty hplain hnumber hfinds hfinite .done, hrest, by simp⟩
    | named => exact absurd rfl hword.noMark
    | @function function =>
      have hnone := hword.noFunction
      rw [ofWord?_name] at hnone
      cases hnone
  · rintro ⟨first, cells₁, others, hfirst, hrest, rfl⟩
    cases hfirst with
    | empty hnil => cases hnil; simpa using Takes.empty hrest
    | literal hnumber hfinite hnil => cases hnil; simpa using Takes.literal hnumber hfinite hrest
    | name hnonempty hplain hnumber hfinds hfinite hnil =>
      cases hnil
      simpa using Takes.name hnonempty hplain hnumber hfinds hfinite hrest
    | named hne => exact absurd rfl hne
    | function hne => exact absurd rfl hne

/-- Plain words come to one value each, before what comes after them. -/
theorem Takes.length_of_plain {plain : List String} (hplain : ∀ word ∈ plain, IsPlain word)
    (h : Takes lookup (plain ++ rest) cells taken cells') :
    ∃ cells₁ others, Takes lookup rest cells₁ others cells' ∧
      taken.values.length = plain.length + others.values.length := by
  induction plain generalizing cells taken with
  | nil => exact ⟨cells, taken, h, (Nat.zero_add _).symm⟩
  | cons word plain ih =>
    obtain ⟨first, cells₁, others, hfirst, hothers, rfl⟩ :=
      (takes_cons_iff (hplain word (List.mem_cons_self ..))).mp h
    obtain ⟨cells₂, last, hlast, hlength⟩ := ih (fun word hmem => hplain word (List.mem_cons_of_mem _ hmem)) hothers
    refine ⟨cells₂, last, hlast, ?_⟩
    rw [Extraction.values_append, List.length_append, hfirst.alone.2, hlength, List.length_cons]
    omega

theorem takesEach_cons_iff {text : String} {rest : List String} :
    TakesEach lookup (text :: rest) cells taken cells' ↔
      ∃ first cells₁ others, Takes lookup (words (Text.withoutSpaces text)) cells first cells₁ ∧
        first.values.length = 1 ∧ TakesEach lookup rest cells₁ others cells' ∧ taken = first ++ others := by
  constructor
  · intro h
    cases h with
    | cons hfirst hrest => exact ⟨_, _, _, hfirst, rfl, hrest, rfl⟩
  · rintro ⟨first, cells₁, others, hfirst, hone, hrest, rfl⟩
    obtain ⟨value, dependencies, rfl⟩ := exists_eq_single hone
    exact .cons hfirst hrest

theorem TakesEach.length {texts : List String} (h : TakesEach lookup texts cells taken cells') :
    taken.values.length = texts.length := by
  induction h with
  | nil => rfl
  | cons _ _ ih => rw [length_single_append, ih, List.length_cons]

/-- Pieces without slashes and a last one come to what the words of the whole come to, if those come to a value for
each piece. A piece that is not plain comes to nothing by itself, and in the whole it leaves none for the others. -/
theorem takesEach_iff {pieces : List String} (hpieces : ∀ piece ∈ pieces, '/' ∉ piece.toList) {last : String} :
    TakesEach lookup (pieces ++ [last]) cells taken cells' ↔
      Takes lookup (pieces.map Text.withoutSpaces ++ words (Text.withoutSpaces last)) cells taken cells' ∧
        taken.values.length = pieces.length + 1 := by
  induction pieces generalizing cells taken with
  | nil =>
    rw [List.nil_append, takesEach_cons_iff]
    constructor
    · rintro ⟨first, cells₁, others, hfirst, hone, hrest, rfl⟩
      cases hrest
      exact ⟨by simpa using hfirst, by simpa using hone⟩
    · rintro ⟨htakes, hone⟩
      exact ⟨taken, cells', {}, htakes, hone, .nil, (Extraction.append_empty taken).symm⟩
  | cons piece pieces ih =>
    have hpiece : words (Text.withoutSpaces piece) = [Text.withoutSpaces piece] :=
      words_of_not_mem (Text.not_mem_withoutSpaces (hpieces piece (List.mem_cons_self ..)))
    have hothers : ∀ other ∈ pieces, '/' ∉ other.toList := fun other hmem => hpieces other (List.mem_cons_of_mem _ hmem)
    rw [List.cons_append, takesEach_cons_iff, hpiece, List.map_cons, List.cons_append]
    by_cases hplain : IsPlain (Text.withoutSpaces piece)
    · rw [takes_cons_iff hplain]
      constructor
      · rintro ⟨first, cells₁, others, hfirst, hone, hrest, rfl⟩
        obtain ⟨htakes, hlength⟩ := (ih hothers).mp hrest
        refine ⟨⟨first, cells₁, others, hfirst, htakes, rfl⟩, ?_⟩
        rw [Extraction.values_append, List.length_append, hone, hlength, List.length_cons, Nat.add_comm]
      · rintro ⟨⟨first, cells₁, others, hfirst, htakes, rfl⟩, hlength⟩
        have hone := hfirst.alone.2
        rw [Extraction.values_append, List.length_append, hone, List.length_cons] at hlength
        exact ⟨first, cells₁, others, hfirst, hone, (ih hothers).mpr ⟨htakes, by omega⟩, rfl⟩
    · refine iff_of_false ?_ ?_
      · rintro ⟨first, cells₁, others, hfirst, -⟩
        exact hplain hfirst.alone.1
      · rintro ⟨htakes, hlength⟩
        rw [htakes.length_of_not_plain hplain, List.length_cons] at hlength
        omega

end Takes

/-! ### Readers -/

section Readers

variable {lookup : Lookup} {expecting : String} {requested : Option Int} {read : Extraction} {p : Progress}
  {cells : Store}

/-- What is read counts only if it is as much as requested. -/
theorem counted_yields_iff {f : Resolve (Option Extraction)} :
    (do
      match ← f with
      | none => return none
      | some found =>
        if requested.any fun count => (found.values.length : Int) ≠ count then return none
        else return some found : Resolve (Option Extraction)).Yields p (some read) cells ↔
      f.Yields p (some read) cells ∧ ∀ count, requested = some count → (read.values.length : Int) = count := by
  have hcount (found : Extraction) : ¬ (requested.any fun count => (found.values.length : Int) ≠ count) = true ↔
      ∀ count, requested = some count → (found.values.length : Int) = count := by
    cases requested <;> simp
  constructor
  · intro h
    obtain ⟨found, p₁, hfound, h⟩ := yields_bind_iff.mp h
    cases found with
    | none => cases (yields_pure_iff.mp h).1
    | some found =>
      dsimp only at h
      split at h
      · cases (yields_pure_iff.mp h).1
      next hsame =>
      obtain ⟨heq, rfl⟩ := yields_pure_iff.mp h
      cases heq
      exact ⟨⟨p₁, hfound, rfl⟩, (hcount _).mp hsame⟩
  · rintro ⟨⟨p₁, hfound, rfl⟩, hsame⟩
    refine yields_bind_iff.mpr ⟨some read, p₁, hfound, ?_⟩
    dsimp only
    rw [if_neg ((hcount read).mpr hsame)]
    exact yields_pure_iff.mpr ⟨rfl, rfl⟩

theorem extractJson_text_yields_iff (hl : ∀ name, IgnoresPast (lookup name)) {text : String} :
    (extractJson lookup expecting (.string text) requested).Yields p (some read) cells ↔
      Takes lookup (words (Text.withoutSpaces text)) p.store read cells ∧
        ∀ count, requested = some count → (read.values.length : Int) = count := by
  refine counted_yields_iff.trans ?_
  rw [extract_yields_iff hl]
  constructor
  · rintro ⟨hread, -⟩
    exact hread
  · intro hread
    exact ⟨hread, hread.2⟩

theorem extractItems_texts (lookup : Lookup) (expecting : String) (texts : List String) :
    extractItems lookup expecting (texts.map .string) = extractEach lookup expecting texts := by
  induction texts with
  | nil => rfl
  | cons text rest ih => simp only [List.map_cons, extractItems, extractEach, extractOneJson, ih]

theorem extractJson_list_yields_iff (hl : ∀ name, IgnoresPast (lookup name)) {texts : List String} :
    (extractJson lookup expecting (.list (texts.map .string)) requested).Yields p (some read) cells ↔
      TakesEach lookup texts p.store read cells ∧
        ∀ count, requested = some count → (read.values.length : Int) = count := by
  refine counted_yields_iff.trans ?_
  rw [extractItems_texts, extractEach_yields_iff hl]

/-- The parts of insets are four, the first three without slash, or else they are all the words and too few. -/
theorem insetParts_cases (raw : String) :
    (∃ pieces last, pieces.length = 3 ∧ (∀ piece ∈ pieces, '/' ∉ piece.toList) ∧
        insetParts raw = pieces ++ [last] ∧ ofWords (pieces ++ [last]) = Text.withoutSpaces raw) ∨
      insetParts raw = words (Text.withoutSpaces raw) ∧ (words (Text.withoutSpaces raw)).length < 4 := by
  have hjoined := ofWords_words (Text.withoutSpaces raw)
  have hslash : ∀ word ∈ words (Text.withoutSpaces raw), '/' ∉ word.toList := fun word => not_mem_of_mem_words
  unfold insetParts
  generalize words (Text.withoutSpaces raw) = parts at hjoined hslash
  match parts with
  | [] | [_] | [_, _] | [_, _, _] => exact .inr ⟨rfl, by simp⟩
  | a :: b :: c :: d :: rest =>
    refine .inl ⟨[a, b, c], ofWords (d :: rest), rfl, fun piece hmem => hslash piece ?_, rfl, ?_⟩
    · exact List.mem_append_left (d :: rest) (show piece ∈ [a, b, c] from hmem)
    · rw [← hjoined]
      simp [ofWords_cons, ofWords_singleton]

/-- Insets are read with success if their words come to four values. -/
theorem extractInsets_yields_iff (hl : ∀ name, IgnoresPast (lookup name)) {raw : String} :
    (extractInsets lookup expecting raw).Yields p (some read) cells ↔
      Takes lookup (words (Text.withoutSpaces raw)) p.store read cells ∧ read.values.length = 4 := by
  have hparts : (extractInsets lookup expecting raw).Yields p (some read) cells ↔
      TakesEach lookup (insetParts raw) p.store read cells ∧ read.values.length = 4 := by
    refine Iff.trans ?_ (and_congr_left' (extractEach_yields_iff hl) :
      (extractEach lookup expecting (insetParts raw)).Yields p (some read) cells ∧ read.values.length = 4 ↔ _)
    constructor
    · intro h
      obtain ⟨found, p₁, hfound, h⟩ := yields_bind_iff.mp h
      cases found with
      | none => exact absurd h not_yields_reject
      | some found =>
        dsimp only at h
        split at h
        · next hfour =>
          obtain ⟨hsame, rfl⟩ := yields_pure_iff.mp h
          cases hsame
          exact ⟨⟨p₁, hfound, rfl⟩, hfour⟩
        · exact absurd h not_yields_reject
    · rintro ⟨⟨p₁, hfound, rfl⟩, hfour⟩
      refine yields_bind_iff.mpr ⟨some read, p₁, hfound, ?_⟩
      dsimp only
      rw [if_pos hfour]
      exact yields_pure_iff.mpr ⟨rfl, rfl⟩
  rw [hparts]
  rcases insetParts_cases raw with ⟨pieces, last, hthree, hslash, hcut, hjoined⟩ | ⟨hcut, hfew⟩
  · have hwords := words_withoutSpaces_ofWords hslash last
    rw [hjoined, Text.withoutSpaces_withoutSpaces] at hwords
    rw [hcut, takesEach_iff hslash, ← hwords, hthree]
    exact and_assoc.trans (and_congr_right fun _ => and_self_iff)
  · rw [hcut]
    refine iff_of_false ?_ ?_
    · rintro ⟨heach, hfour⟩
      rw [← heach.length, hfour] at hfew
      exact Nat.lt_irrefl 4 hfew
    · rintro ⟨htakes, hfour⟩
      have hle := htakes.length_le
      omega

end Readers

end Metric

/-! ### Entries and parameters that hold insets -/

/-- The computation ends with a result. -/
def Resolve.Accepts {α : Type} (f : Resolve (Option α)) (p : Progress) : Prop :=
  ∃ x cells, f.Yields p (some x) cells

theorem Reading.metricLookup_ignoresPast (r : Reading) (name : String) : IgnoresPast (r.metricLookup name) := by
  rw [← r.metric_resolve?]
  have hanswer : IgnoresPast (Resolvers.answer r.resolve? .metric name) :=
    (r.resolve?_ignoresPast .metric name).bind fun _ => IgnoresPast.cell.bind fun _ => .pure
  exact hanswer.bind fun _ => .pure

section Insets

variable {r : Reading} {s : String} {p : Progress}

theorem ImageLayers.addInsets_accepts_iff {refs : References} {entry : ImageEntry}
    (hentry : entry.alignmentInsets = some s) (owner : String) (image : Image) :
    (addInsets refs owner entry image).Accepts p ↔
      (Metric.extractInsets refs.metric "image alignmentInsets" s).Accepts p := by
  rw [addInsets, hentry]
  constructor
  · rintro ⟨layered, cells, h⟩
    obtain ⟨read, p₁, hread, hrest⟩ := yields_bind_iff.mp h
    cases read with
    | none => cases (yields_pure_iff.mp hrest).1
    | some read => exact ⟨read, p₁.store, p₁, hread, rfl⟩
  · rintro ⟨read, cells, p₁, hread, -⟩
    exact ⟨_, _, yields_bind_iff.mpr ⟨some read, p₁, hread,
      yields_bind_iff.mpr ⟨(), _, rfl, yields_pure_iff.mpr ⟨rfl, rfl⟩⟩⟩⟩

/-- The content insets of a button style are no error exactly if they are read with success. -/
theorem ButtonLayers.contentInsets_ok_iff (refs : References) (owner : String) :
    (∃ insets cells, (contentInsets refs owner (some s)).Yields p (insets, 0) cells) ↔
      (Metric.extractInsets refs.metric "button style contentInsets" s).Accepts p := by
  constructor
  · rintro ⟨insets, cells, h⟩
    obtain ⟨read, p₁, hread, hrest⟩ := yields_bind_iff.mp h
    cases read with
    | none => cases (yields_pure_iff.mp hrest).1
    | some read => exact ⟨read, p₁.store, p₁, hread, rfl⟩
  · rintro ⟨read, cells, p₁, hread, -⟩
    exact ⟨_, _, yields_bind_iff.mpr ⟨some read, p₁, hread,
      yields_bind_iff.mpr ⟨(), _, rfl, yields_pure_iff.mpr ⟨rfl, rfl⟩⟩⟩⟩

/-- There is a text at a key path of the part in view. -/
def Accessor.HasText (a : Accessor) (keyPath text : String) : Prop :=
  KeyPath.valueAt a.value (a.path keyPath) = .ok (some (.string text))

theorem Accessor.object_of_hasText {a : Accessor} {keyPath : String} (htext : a.HasText keyPath s) :
    a.object keyPath p = .ok (.string s) p := by
  have hvalue : KeyPath.valueAt a.value (a.path keyPath) = .ok (some (.string s)) := htext
  rw [object, hvalue]
  rfl

theorem Accessor.insets_accepts_iff {a : Accessor} {keyPath : String} (htext : a.HasText keyPath s) :
    (a.insets r keyPath).Accepts p ↔
      (Metric.extractJson r.metricLookup (a.expecting keyPath) (.string s) (some 4)).Accepts p := by
  constructor
  · rintro ⟨insets, cells, h⟩
    obtain ⟨numbers, p₁, hnumbers, hinsets⟩ := yields_bind_iff.mp h
    rw [Accessor.numbers, bind_of_ok (object_of_hasText htext)] at hnumbers
    obtain ⟨read, p₂, hread, hvalues⟩ := bind_eq_ok_iff.mp hnumbers
    cases hvalues
    cases read with
    | none => cases (yields_pure_iff.mp hinsets).1
    | some read => exact ⟨read, p₁.store, p₁, hread, rfl⟩
  · rintro ⟨read, cells, p₁, hread, hcells⟩
    have hfour : read.values.length = 4 := by
      have hcount := (Metric.counted_yields_iff.mp ⟨p₁, hread, hcells⟩).2 4 rfl
      omega
    obtain ⟨insets, hinsets⟩ := Option.isSome_iff_exists.mp (Insets.ofList?_isSome_iff.mpr hfour)
    have hnumbers : a.numbers r keyPath (some 4) p = .ok (some read.values) p₁ := by
      rw [Accessor.numbers, bind_of_ok (object_of_hasText htext)]
      exact bind_eq_ok_iff.mpr ⟨some read, p₁, hread, rfl⟩
    refine ⟨insets, cells, yields_bind_iff.mpr ⟨_, p₁, hnumbers, yields_pure_iff.mpr ⟨?_, hcells.symm⟩⟩⟩
    rw [Option.bind_some, hinsets]

end Insets

namespace Metric

/-- What is asked for is a filter on what there is: a text is read with success for so many values exactly if all
of it is read with success and comes to so many, and the values, the dependencies and the cells afterwards are the
same. -/
theorem extract_bounded_iff (r : Reading) (expecting text : String) (count : Nat) (p : Progress) (read : Extraction)
    (cells : Store) :
    (extract r.metricLookup expecting text (some count)).Yields p (some read) cells ↔
      (extract r.metricLookup expecting text none).Yields p (some read) cells ∧ read.values.length = count := by
  rw [extract_yields_iff r.metricLookup_ignoresPast, extract_yields_iff r.metricLookup_ignoresPast]
  constructor
  · rintro ⟨htakes, hcount⟩
    exact ⟨⟨htakes, by simp⟩, by have hlength := hcount count rfl; omega⟩
  · rintro ⟨⟨htakes, -⟩, rfl⟩
    exact ⟨htakes, by simp⟩

/-- Texts in a list are read as the text joined from them, if all but the last are plain words and the last is one
word or begins with a word that is not plain. -/
theorem list_agrees_with_text {items : List String} {last : String}
    (hitems : ∀ item ∈ items, '/' ∉ item.toList ∧ Text.withoutSpaces item ∉ heads)
    (hlast : '/' ∉ last.toList ∨ ∃ head ∈ heads, ∃ rest, Text.withoutSpaces last = head ++ "/" ++ rest)
    (r : Reading) (expecting expecting' : String) (requested : Option Int) (p : Progress) (read : Extraction)
    (cells : Store) :
    (extractJson r.metricLookup expecting (.list ((items ++ [last]).map .string)) requested).Yields p (some read)
        cells ↔
      (extractJson r.metricLookup expecting' (.string ("/".intercalate (items ++ [last]))) requested).Yields p
        (some read) cells := by
  have hslash : ∀ item ∈ items, '/' ∉ item.toList := fun item hmem => (hitems item hmem).1
  have hplain : ∀ word ∈ items.map Text.withoutSpaces, IsPlain word := by
    intro word hmem
    obtain ⟨item, hitem, rfl⟩ := List.mem_map.mp hmem
    exact isPlain_iff.mpr (hitems item hitem).2
  have hone {taken : Extraction} {cells cells' : Store}
      (h : Takes r.metricLookup (words (Text.withoutSpaces last)) cells taken cells') : taken.values.length = 1 := by
    rcases hlast with hlast | ⟨head, hhead, rest, hlast⟩
    · rw [words_of_not_mem (Text.not_mem_withoutSpaces hlast)] at h
      exact h.alone.2
    · rw [hlast, words_append (not_mem_of_mem_heads hhead)] at h
      exact h.length_of_not_plain fun hplain => isPlain_iff.mp hplain hhead
  rw [extractJson_list_yields_iff r.metricLookup_ignoresPast, extractJson_text_yields_iff r.metricLookup_ignoresPast,
    takesEach_iff hslash]
  refine and_congr_left fun _ => ?_
  rw [← words_withoutSpaces_ofWords hslash]
  refine and_iff_left_of_imp fun h => ?_
  rw [words_withoutSpaces_ofWords hslash] at h
  obtain ⟨cells₁, others, hothers, hlength⟩ := h.length_of_plain hplain
  rw [hlength, hone hothers, List.length_map]

/-- Two words and a function, in a list and joined. -/
theorem list_agrees_with_text_nested :
    (∀ item ∈ ["1", "tw ice"], '/' ∉ item.toList ∧ Text.withoutSpaces item ∉ heads) ∧
      (∃ head ∈ heads, ∃ rest, Text.withoutSpaces "add / 2 / size" = head ++ "/" ++ rest) ∧
      ∀ read cells,
        (extractJson Reading.nestedMetrics.metricLookup "" (.list (["1", "tw ice", "add / 2 / size"].map .string))
            (some 3)).Yields {} (some read) cells ↔
          (extractJson Reading.nestedMetrics.metricLookup ""
            (.string ("/".intercalate ["1", "tw ice", "add / 2 / size"])) (some 3)).Yields {} (some read) cells := by
  have hitems : ∀ item ∈ ["1", "tw ice"], '/' ∉ item.toList ∧ Text.withoutSpaces item ∉ heads := by decide
  have hlast : ∃ head ∈ heads, ∃ rest, Text.withoutSpaces "add / 2 / size" = head ++ "/" ++ rest :=
    ⟨"add", by decide, "2/size", by decide⟩
  exact ⟨hitems, hlast, list_agrees_with_text hitems (.inr hlast) Reading.nestedMetrics "" "" (some 3) {}⟩

/-- Insets are read as four values between slashes, and all that holds insets accepts the same texts. -/
theorem insets_agree (r : Reading) (s : String) (p : Progress) :
    (∀ expecting expecting' read cells,
      (extractInsets r.metricLookup expecting s).Yields p (some read) cells ↔
        (extractJson r.metricLookup expecting' (.string s) (some 4)).Yields p (some read) cells) ∧
    (∀ expecting read cells,
      (extractInsets r.metricLookup expecting s).Yields p (some read) cells → read.values.length = 4) ∧
    (∀ (a : Accessor) (keyPath : String), a.HasText keyPath s →
      (∀ (refs : ImageLayers.References) (owner : String) (entry : ImageEntry) (image : Image),
        refs.metric = r.metricLookup → entry.alignmentInsets = some s →
        ((ImageLayers.addInsets refs owner entry image).Accepts p ↔ (a.insets r keyPath).Accepts p)) ∧
      ∀ (refs : ButtonLayers.References) (owner : String), refs.metric = r.metricLookup →
        ((∃ insets cells, (ButtonLayers.contentInsets refs owner (some s)).Yields p (insets, 0) cells) ↔
          (a.insets r keyPath).Accepts p)) := by
  have hagree (expecting expecting' : String) (read : Extraction) (cells : Store) :
      (extractInsets r.metricLookup expecting s).Yields p (some read) cells ↔
        (extractJson r.metricLookup expecting' (.string s) (some 4)).Yields p (some read) cells := by
    rw [extractInsets_yields_iff r.metricLookup_ignoresPast, extractJson_text_yields_iff r.metricLookup_ignoresPast]
    refine and_congr_right fun _ => ⟨fun hfour count hc => ?_, fun hcount => ?_⟩
    · cases hc
      omega
    · have hfour := hcount 4 rfl
      omega
  have haccepts (expecting expecting' : String) : (extractInsets r.metricLookup expecting s).Accepts p ↔
      (extractJson r.metricLookup expecting' (.string s) (some 4)).Accepts p :=
    exists_congr fun read => exists_congr fun cells => hagree expecting expecting' read cells
  refine ⟨hagree, fun expecting read cells h => ?_, fun a keyPath htext => ⟨?_, ?_⟩⟩
  · exact ((extractInsets_yields_iff r.metricLookup_ignoresPast).mp h).2
  · intro refs owner entry image hrefs hentry
    rw [ImageLayers.addInsets_accepts_iff hentry, Accessor.insets_accepts_iff htext, hrefs]
    exact haccepts _ _
  · intro refs owner hrefs
    rw [ButtonLayers.contentInsets_ok_iff, Accessor.insets_accepts_iff htext, hrefs]
    exact haccepts _ _

/-- A parameter and an image with the same insets, the last of which is a function. -/
theorem insets_agree_nested :
    (⟨.string "0/size/1/add/2/twice", ""⟩ : Accessor).HasText "" "0/size/1/add/2/twice" ∧
      ((ImageLayers.addInsets ⟨Reading.nestedMetrics.metricLookup, Reading.nestedMetrics.color, fun _ => false⟩ "icon"
            ⟨.file "icon.png", some "0/size/1/add/2/twice", none, none, none⟩ .invalid).Accepts {} ↔
        ((⟨.string "0/size/1/add/2/twice", ""⟩ : Accessor).insets Reading.nestedMetrics "").Accepts {}) := by
  have htext : (⟨.string "0/size/1/add/2/twice", ""⟩ : Accessor).HasText "" "0/size/1/add/2/twice" := rfl
  exact ⟨htext, ((insets_agree Reading.nestedMetrics "0/size/1/add/2/twice" {}).2.2 _ _ htext).1 _ _ _ _ rfl rfl⟩

end Metric

end DesignTokens
