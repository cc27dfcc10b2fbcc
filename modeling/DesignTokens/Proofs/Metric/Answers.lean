import DesignTokens.Proofs.Metric.Scan
import DesignTokens.Proofs.Resolution.Ending

/-!
# What metric expressions are read as

Literals may be beyond the range of doubles, and so may sums and products. But every reading of an expression ends in a
judgement of its values, the arguments of functions among them, and the judgement passes finite values only. A reading
may also end in a fault. There are two places that faults can come from: the lookup of a name, and a word that has the
form of a number.

Nothing is assumed of how names are looked up, except for the faults that looking up the names of an expression may end
in.

* `Metric.scan_answers` — reading words, whatever has been read before.
* `Metric.extract_answers`, `Metric.extractJson_answers` — the readers of texts and of data.
* `Metric.compute_answers` — the text of a metric.
-/

namespace DesignTokens

open Resolve

/-- All values are finite. -/
def Extraction.IsFinite (read : Extraction) : Prop := ∀ value ∈ read.values, value.isFinite = true

namespace Extraction.IsFinite

variable {read others : Extraction} {value : Float} {dependencies : List Dependency}

theorem empty : IsFinite {} := fun _ hmem => nomatch hmem

theorem single (h : value.isFinite = true) : (Extraction.single value dependencies).IsFinite :=
  List.forall_mem_singleton.mpr h

theorem append (h : read.IsFinite) (h' : others.IsFinite) : (read ++ others).IsFinite :=
  List.forall_mem_append.mpr ⟨h, h'⟩

end Extraction.IsFinite

namespace Metric

/-- The texts that a value is read from: the value itself, or items of it. -/
inductive TextOf : Json → String → Prop where
  | self (text : String) : TextOf (.string text) text
  | item {items : List Json} {text : String} (hitem : .string text ∈ items) : TextOf (.list items) text

/-- A word of a text has the form of a number and still cannot be read as one. -/
def Unreadable (text : String) (fault : Fault) : Prop :=
  ∃ word ∈ words (Text.withoutSpaces text), Number.Literal.number? word = .error fault

/-- What the text of a value is unreadable for. -/
def UnreadableJson (value : Json) (fault : Fault) : Prop := ∃ text, value = .string text ∧ Unreadable text fault

/-- Neither the words of a text nor the names in it lead to other faults than those that may be. -/
structure Tame (lookup : Lookup) (may : Fault → Prop) (text : String) : Prop where
  names : ∀ name ∈ names (words (Text.withoutSpaces text)), Ends (fun _ => True) may (lookup name)
  words : ∀ fault, Unreadable text fault → may fault

section

variable {may : Fault → Prop} {lookup : Lookup} {expecting whole text name : String} {requested : Option Int}
  {read : Extraction}

/-- A table tells without faults. -/
theorem Tame.probe {o : Oracle} (h : ∀ fault, Unreadable text fault → may fault) :
    Tame (Resolvers.probe o).metric may text := ⟨fun _ _ => .metric, h⟩

/-! ### Words -/

theorem conclude_answers (rest : List String) :
    Finds Extraction.IsFinite may (conclude expecting whole requested rest read) where
  ok p x p' hx := by
    rintro found rfl
    obtain ⟨rfl, -, hfinite, -⟩ := conclude_eq_ok_iff.mp hx
    exact hfinite
  error p fault p' h := absurd h conclude_ne_error

theorem namedValue_answers (hlookup : Ends (fun _ => True) may (lookup name)) :
    Ends (fun _ => True) may (namedValue lookup expecting name whole) := by
  have hreject {notice : Notice} : Ends (fun _ => True) may (Resolve.reject notice : Resolve (Option Float)) :=
    Ends.weaken .reject fun (_ : Option Float) (_ : ∀ value ∈ _, True) => trivial
  refine hlookup.bind fun found _ => ?_
  cases found with
  | missing => exact hreject
  | invalid => exact hreject
  | found value => exact .pure trivial

/-- However the words are read, the judgement comes last. -/
theorem scan_answers {words : List String} (hlookup : ∀ name ∈ names words, Ends (fun _ => True) may (lookup name))
    (hmay : ∀ word ∈ words, ∀ fault, Number.Literal.number? word = .error fault → may fault) :
    Finds Extraction.IsFinite may (scan lookup expecting words whole requested read) := by
  -- What stands behind a function is read as a text of its own, with nothing read yet and no number requested.
  induction words generalizing whole requested read with
  | nil => exact conclude_answers []
  | cons word rest ih =>
    obtain ⟨hword, hothers⟩ := List.forall_mem_cons.mp hmay
    by_cases hfull : ¬ read.HasRoom requested
    · rw [scan_full hfull]
      exact conclude_answers _
    have hroom : read.HasRoom requested := not_not.mp hfull
    cases wordKind word with
    | function function =>
      rw [names_function] at hlookup
      by_cases hrest : rest = []
      · rw [hrest, scan_function_alone hroom]
        exact .reject
      rw [scan_function hroom function hrest]
      refine (ih hlookup hothers).bind fun args _ => ?_
      cases args with
      | none => exact .reject
      | some args =>
        dsimp only
        split
        · exact .reject
        · exact conclude_answers []
    | empty =>
      rw [names_empty] at hlookup
      rw [scan_empty hroom]
      exact ih hlookup hothers
    | named =>
      by_cases hrest : rest = []
      · rw [hrest, scan_named_alone hroom]
        exact .reject
      rw [names_named hrest] at hlookup
      rw [scan_named hroom hrest]
      refine (namedValue_answers (hlookup _ (List.mem_singleton_self _))).bind fun value _ => ?_
      cases value with
      | none => exact .none
      | some value => exact conclude_answers []
    | plain hplain hnonempty =>
      rw [scan_plain hroom hplain hnonempty]
      have hliteral : Ends (fun literal => Number.Literal.number? word = .ok literal) may
          (Resolve.lift (Number.Literal.number? word)) := .lift (fun _ => id) hword
      refine hliteral.bind fun literal hnumber => ?_
      cases literal with
      | some value =>
        rw [names_literal hnumber] at hlookup
        exact ih hlookup hothers
      | none =>
        rw [names_name hplain hnonempty hnumber] at hlookup
        obtain ⟨hname, hnames⟩ := List.forall_mem_cons.mp hlookup
        refine (namedValue_answers hname).bind fun value _ => ?_
        cases value with
        | none => exact .none
        | some value => exact ih hnames hothers

/-! ### Texts -/

theorem extract_answers (h : Tame lookup may text) :
    Finds Extraction.IsFinite may (extract lookup expecting (Text.withoutSpaces text) requested) :=
  scan_answers h.names fun word hword fault hfault => h.words fault ⟨word, hword, hfault⟩

theorem extractOne_answers (h : Tame lookup may text) :
    Finds (fun read => read.1.isFinite = true) may (extractOne lookup expecting text) := by
  refine (extract_answers h).bind fun read hread => ?_
  rcases read with _ | ⟨_ | ⟨value, others⟩, dependencies⟩
  · exact .none
  · exact .none
  · exact .some (hread _ rfl value (List.mem_cons_self ..))

/-- One value after the other, each of them finite. -/
theorem each_answers {one : Resolve (Option (Float × List Dependency))} {rest : Resolve (Option Extraction)}
    (hone : Finds (fun read => read.1.isFinite = true) may one) (hrest : Finds Extraction.IsFinite may rest) :
    Finds Extraction.IsFinite may (do
      match ← one with
      | none => return none
      | some (value, dependencies) =>
        match ← rest with
        | none => return none
        | some others => return some (Extraction.single value dependencies ++ others)) := by
  refine hone.bind fun first hfirst => ?_
  rcases first with _ | ⟨value, dependencies⟩
  · exact .none
  · refine hrest.bind fun others hothers => ?_
    cases others with
    | none => exact .none
    | some others => exact .some (.append (.single (hfirst (value, dependencies) rfl)) (hothers others rfl))

theorem extractEach_answers {texts : List String} (h : ∀ text ∈ texts, Tame lookup may text) :
    Finds Extraction.IsFinite may (extractEach lookup expecting texts) := by
  induction texts with
  | nil => exact .some .empty
  | cons text rest ih =>
    obtain ⟨htext, hrest⟩ := List.forall_mem_cons.mp h
    rw [extractEach]
    exact each_answers (extractOne_answers htext) (ih hrest)

theorem extractInsets_answers {raw : String} (h : ∀ text ∈ insetParts raw, Tame lookup may text) :
    Finds Extraction.IsFinite may (extractInsets lookup expecting raw) := by
  refine (extractEach_answers h).bind fun read hread => ?_
  cases read with
  | none => exact .reject
  | some read =>
    dsimp only
    split
    · exact .some (hread _ rfl)
    · exact .reject

/-- The value of a metric is finite. -/
theorem compute_answers (h : Tame lookup may text) :
    Finds (fun value => value.isFinite = true) may (compute lookup name text) := by
  unfold compute
  split
  · exact .none
  refine (extractOne_answers h).bind fun read hread => ?_
  rcases read with _ | ⟨value, dependencies⟩
  · exact .none
  · exact Ends.dependOn.bind fun _ _ => .some (hread (value, dependencies) rfl)

/-! ### Data -/

/-- The number that a value is, is finite, however large an integer it was. -/
theorem isFinite_of_finiteNumber? {value : Json} {x : Float} (h : finiteNumber? value = some x) :
    x.isFinite = true := by
  unfold finiteNumber? at h
  split at h
  · unfold Number.ofInt? at h
    dsimp only at h
    split at h
    · next hfinite =>
      cases h
      exact hfinite
    · cases h
  · split at h
    · next hfinite =>
      cases h
      exact hfinite
    · cases h
  · cases h

variable {value : Json}

theorem extractOneJson_answers (h : ∀ text, value = .string text → Tame lookup may text) :
    Finds (fun read => read.1.isFinite = true) may (extractOneJson lookup expecting value) := by
  unfold extractOneJson
  split
  · next text => exact extractOne_answers (h text rfl)
  · refine .pure fun read hread => ?_
    obtain ⟨x, hx, rfl⟩ := Option.map_eq_some_iff.mp hread
    exact isFinite_of_finiteNumber? hx

theorem extractItems_answers {items : List Json} (h : ∀ text, .string text ∈ items → Tame lookup may text) :
    Finds Extraction.IsFinite may (extractItems lookup expecting items) := by
  induction items with
  | nil => exact .some .empty
  | cons item rest ih =>
    have hitem (text : String) (htext : item = .string text) : Tame lookup may text :=
      h text (htext ▸ List.mem_cons_self ..)
    rw [extractItems]
    exact each_answers (extractOneJson_answers hitem) (ih fun text htext => h text (List.mem_cons_of_mem _ htext))

/-- As many values as are requested. -/
def AsRequested (requested : Option Int) (values : List Float) : Prop :=
  ∀ count ∈ requested, (values.length : Int) = count

/-- What is read counts only if it is as much as requested. -/
theorem counted_answers {f : Resolve (Option Extraction)} (hf : Finds Extraction.IsFinite may f) :
    Finds (fun found => found.IsFinite ∧ AsRequested requested found.values) may (do
      match ← f with
      | none => return none
      | some found =>
        if requested.any fun count => (found.values.length : Int) ≠ count then return none
        else return some found) := by
  refine hf.bind fun found hfound => ?_
  cases found with
  | none => exact .none
  | some found =>
    dsimp only
    split
    · exact .none
    · next hcount =>
      refine .some ⟨hfound _ rfl, ?_⟩
      rintro count rfl
      simpa using hcount

theorem extractJson_answers (h : ∀ text, TextOf value text → Tame lookup may text) :
    Finds (fun found => found.IsFinite ∧ AsRequested requested found.values) may
      (extractJson lookup expecting value requested) := by
  have hnumber (value : Json) : Finds Extraction.IsFinite may
      (pure ((finiteNumber? value).map fun number => Extraction.single number [])) := by
    refine .pure fun read hread => ?_
    obtain ⟨x, hx, rfl⟩ := Option.map_eq_some_iff.mp hread
    exact .single (isFinite_of_finiteNumber? hx)
  cases value with
  | list items =>
    exact counted_answers (extractItems_answers fun text htext => h text (.item htext))
  | string text =>
    exact counted_answers (extract_answers (h text (.self text)))
  | _ => exact counted_answers (hnumber _)

end

end Metric

end DesignTokens
