import DesignTokens.Proofs.Metric.Grammar
import DesignTokens.Proofs.Resolution.Inquiry

/-!
# Reading the words of an expression

The evaluator reads words from left to right with the values read so far in hand, and calls itself for the
arguments of a function. What it does at a word depends on the kind of the word: there is one equation for
each kind, and everything about the evaluator goes by these equations.

Where names are looked up truthfully, it finds exactly the values that the words have, and as many as were asked for.

* `Metric.wordKind` — the kinds of words.
* `Metric.scan_finishes` — all the ways to find something, by the first word.
* `Metric.scan_sound`, `Metric.scan_complete` — the evaluator and the values of words.
* `Metric.compute_sound`, `Metric.compute_complete` — the same for the text of a metric.
-/

namespace DesignTokens

namespace Extraction

variable {read : Extraction} {requested : Option Int} {value : Float} {dependencies : List Dependency}

/-- Fewer values have been read than are requested. -/
def HasRoom (read : Extraction) (requested : Option Int) : Prop :=
  ∀ count, requested = some count → (read.values.length : Int) < count

theorem hasRoom_iff :
    read.HasRoom requested ↔ ¬ (requested.any fun count => count ≤ (read.values.length : Int)) = true := by
  cases requested <;> simp [HasRoom]

/-- With room for one, one more value is not too many. -/
theorem HasRoom.length_single_le (h : read.HasRoom requested) (value : Float) (dependencies : List Dependency)
    (count : Int) (hcount : requested = some count) :
    ((read ++ single value dependencies).values.length : Int) ≤ count := by
  have hlt := h count hcount
  simp only [values_append, single, List.length_append, List.length_singleton]
  omega

theorem values_append_single (value : Float) (dependencies : List Dependency) (values : List Float) :
    (read ++ single value dependencies).values ++ values = read.values ++ value :: values := by
  simp [values_append, single]

/-- There is room where a value is still to come. -/
theorem HasRoom.of_length {values : List Float}
    (h : ∀ count, requested = some count → ((read.values ++ value :: values).length : Int) = count) :
    read.HasRoom requested := by
  intro count hcount
  have hlength := h count hcount
  simp only [List.length_append, List.length_cons] at hlength
  omega

theorem isFinite_append_single (hread : ∀ x ∈ read.values, x.isFinite = true) (hvalue : value.isFinite = true) :
    ∀ x ∈ (read ++ single value dependencies).values, x.isFinite = true := by
  intro x hx
  rcases List.mem_append.mp hx with hx | hx
  · exact hread x hx
  · rwa [List.mem_singleton.mp hx]

end Extraction

namespace Metric

open Resolve

/-! ### Words by their kinds -/

/-- The kinds of words. -/
inductive WordKind : String → Prop where
  | function (function : MetricFunction) : WordKind function.name
  | empty : WordKind ""
  | named : WordKind "named"
  | plain {word : String} (hplain : IsPlain word) (hnonempty : word ≠ "") : WordKind word

theorem wordKind (word : String) : WordKind word := by
  cases hfunction : MetricFunction.ofWord? word with
  | some function =>
    rw [name_of_ofWord? hfunction]
    exact .function function
  | none =>
    by_cases hempty : word = ""
    · rw [hempty]
      exact .empty
    by_cases hmark : word = "named"
    · rw [hmark]
      exact .named
    · exact .plain ⟨hfunction, hmark⟩ hempty

section Equations

variable {lookup : Lookup} {expecting word whole : String} {rest : List String} {requested : Option Int}
  {read : Extraction}

theorem scan_full (h : ¬ read.HasRoom requested) :
    scan lookup expecting (word :: rest) whole requested read =
      conclude expecting whole requested (word :: rest) read := by
  rw [Extraction.hasRoom_iff, not_not] at h
  simp only [scan]
  exact if_pos h

theorem scan_function (h : read.HasRoom requested) (function : MetricFunction) (hrest : rest ≠ []) :
    scan lookup expecting (function.name :: rest) whole requested read = (do
      match ← scan lookup expecting rest (ofWords rest) none {} with
      | none => reject (.fewParameters expecting function.name whole)
      | some args =>
        if args.values.length ≤ function.tooFew then reject (.fewParameters expecting function.name whole)
        else
          conclude expecting whole requested []
            (read ++ Extraction.single (function.apply args.values) args.dependencies)) := by
  simp only [scan, ofWord?_name, List.isEmpty_iff, hrest, if_false]
  exact if_neg (Extraction.hasRoom_iff.mp h)

theorem scan_function_alone (h : read.HasRoom requested) (function : MetricFunction) :
    scan lookup expecting [function.name] whole requested read =
      reject (.noParameters expecting function.name whole) := by
  simp only [scan, ofWord?_name, List.isEmpty_nil, if_true]
  exact if_neg (Extraction.hasRoom_iff.mp h)

theorem scan_empty (h : read.HasRoom requested) :
    scan lookup expecting ("" :: rest) whole requested read =
      scan lookup expecting rest whole requested (read ++ Extraction.single 0.0 []) := by
  simp only [scan, isPlain_empty.noFunction]
  rw [if_neg (Extraction.hasRoom_iff.mp h)]
  rfl

theorem scan_named (h : read.HasRoom requested) (hrest : rest ≠ []) :
    scan lookup expecting ("named" :: rest) whole requested read = (do
      match ← namedValue lookup expecting (ofWords rest) whole with
      | none => return none
      | some value =>
        conclude expecting whole requested []
          (read ++ Extraction.single value [⟨.metric, ofWords rest⟩])) := by
  have hfunction : MetricFunction.ofWord? "named" = none := by decide
  have hnonempty : "named" ≠ "" := by decide
  simp only [scan, hfunction, String.isEmpty_iff, hnonempty, List.isEmpty_iff, hrest, if_true, if_false]
  exact if_neg (Extraction.hasRoom_iff.mp h)

theorem scan_named_alone (h : read.HasRoom requested) :
    scan lookup expecting ["named"] whole requested read = reject (.missingMetricName expecting whole) := by
  have hfunction : MetricFunction.ofWord? "named" = none := by decide
  have hnonempty : "named" ≠ "" := by decide
  simp only [scan, hfunction, String.isEmpty_iff, hnonempty, List.isEmpty_nil, if_true, if_false]
  exact if_neg (Extraction.hasRoom_iff.mp h)

theorem scan_plain (h : read.HasRoom requested) (hplain : IsPlain word) (hnonempty : word ≠ "") :
    scan lookup expecting (word :: rest) whole requested read = (do
      match ← lift (Number.Literal.number? word) with
      | some value => scan lookup expecting rest whole requested (read ++ Extraction.single value [])
      | none =>
        match ← namedValue lookup expecting word whole with
        | none => return none
        | some value =>
          scan lookup expecting rest whole requested (read ++ Extraction.single value [⟨.metric, word⟩])) := by
  simp only [scan, hplain.noFunction, String.isEmpty_iff, hnonempty, hplain.noMark, if_false]
  exact if_neg (Extraction.hasRoom_iff.mp h)

end Equations

/-! ### The judgement and the names -/

/-- A lookup that gives the same answers in every state. -/
def Answers (lookup : Lookup) (o : String → MetricLookup) : Prop :=
  ∀ name p, ∃ p', lookup name p = .ok (o name) p'

theorem conclude_eq_ok_iff {expecting whole : String} {requested : Option Int} {rest : List String}
    {read found : Extraction} {p p' : Progress} :
    conclude expecting whole requested rest read p = .ok (some found) p' ↔
      found = read ∧ p' = p ∧ (∀ value ∈ read.values, value.isFinite = true) ∧ rest = [] ∧
        ∀ count, requested = some count → count ≤ read.values.length := by
  unfold conclude
  split
  · next h =>
    refine iff_of_false reject_ne_some fun ⟨_, _, hfinite, _⟩ => ?_
    rw [List.all_eq_true.mpr hfinite] at h
    cases h
  split
  · next h =>
    refine iff_of_false reject_ne_some fun ⟨_, _, _, hrest, _⟩ => ?_
    simp [hrest] at h
  split
  · next h =>
    refine iff_of_false reject_ne_some fun ⟨_, _, _, _, hcount⟩ => ?_
    cases requested with
    | none => cases h
    | some count =>
      have hle := hcount count rfl
      simp only [Option.any_some, decide_eq_true_eq] at h
      omega
  · next hfinite hrest hcount =>
    have hcount' : ∀ count, requested = some count → count ≤ read.values.length := by
      rintro count rfl
      simpa using hcount
    simp only [Bool.not_eq_true', Bool.not_eq_false, List.all_eq_true, List.isEmpty_iff] at hfinite hrest
    constructor
    · intro h
      cases h
      exact ⟨rfl, rfl, hfinite, hrest, hcount'⟩
    · rintro ⟨rfl, rfl, -⟩
      rfl

theorem conclude_ne_error {expecting whole : String} {requested : Option Int} {rest : List String}
    {read : Extraction} {p p' : Progress} {fault : Fault} :
    conclude expecting whole requested rest read p ≠ .error fault p' := by
  intro h
  unfold conclude at h
  split at h
  · cases h
  split at h
  · cases h
  split at h <;> cases h

/-! ### How reading succeeds -/

/-- The ways to find something in words, by the first of them. Either the reading goes on behind the word with one more
value, or the word makes one value of everything behind it and the judgement follows. -/
inductive Finishes (lookup : Lookup) (expecting whole : String) (requested : Option Int) (read : Extraction)
    (p : Progress) (found : Extraction) (p' : Progress) : List String → Prop where
  | empty {rest : List String}
      (hscan : scan lookup expecting rest whole requested (read ++ .single 0.0 []) p = .ok (some found) p') :
      Finishes lookup expecting whole requested read p found p' ("" :: rest)
  | literal {word : String} {rest : List String} {value : Float}
      (hnumber : Number.Literal.number? word = .ok (some value))
      (hscan : scan lookup expecting rest whole requested (read ++ .single value []) p = .ok (some found) p') :
      Finishes lookup expecting whole requested read p found p' (word :: rest)
  | name {word : String} {rest : List String} {value : Float} {p₁ : Progress} (hnonempty : word ≠ "")
      (hplain : IsPlain word) (hnumber : Number.Literal.number? word = .ok none)
      (hvalue : namedValue lookup expecting word whole p = .ok (some value) p₁)
      (hscan : scan lookup expecting rest whole requested (read ++ .single value [⟨.metric, word⟩]) p₁ =
        .ok (some found) p') :
      Finishes lookup expecting whole requested read p found p' (word :: rest)
  | named {rest : List String} {value : Float} {p₁ : Progress} (hrest : rest ≠ [])
      (hvalue : namedValue lookup expecting (ofWords rest) whole p = .ok (some value) p₁)
      (hconclude : conclude expecting whole requested [] (read ++ .single value [⟨.metric, ofWords rest⟩]) p₁ =
        .ok (some found) p') :
      Finishes lookup expecting whole requested read p found p' ("named" :: rest)
  | function {function : MetricFunction} {rest : List String} {args : Extraction} {p₁ : Progress} (hrest : rest ≠ [])
      (hargs : scan lookup expecting rest (ofWords rest) none {} p = .ok (some args) p₁)
      (hmany : function.tooFew < args.values.length)
      (hconclude : conclude expecting whole requested []
        (read ++ .single (function.apply args.values) args.dependencies) p₁ = .ok (some found) p') :
      Finishes lookup expecting whole requested read p found p' (function.name :: rest)

/-- What is found in words is found by one of these ways, and only with room for a value, because otherwise it would be
the judgement's turn, which rejects words that are left over. -/
theorem scan_finishes {lookup : Lookup} {expecting word whole : String} {rest : List String} {requested : Option Int}
    {read found : Extraction} {p p' : Progress}
    (h : scan lookup expecting (word :: rest) whole requested read p = .ok (some found) p') :
    read.HasRoom requested ∧ Finishes lookup expecting whole requested read p found p' (word :: rest) := by
  by_cases hfull : ¬ read.HasRoom requested
  · rw [scan_full hfull] at h
    obtain ⟨-, -, -, hnil, -⟩ := conclude_eq_ok_iff.mp h
    cases hnil
  have hroom : read.HasRoom requested := not_not.mp hfull
  refine ⟨hroom, ?_⟩
  cases wordKind word with
  | function function =>
    by_cases hrest : rest = []
    · rw [hrest, scan_function_alone hroom] at h
      exact absurd h reject_ne_some
    rw [scan_function hroom function hrest] at h
    obtain ⟨args, p₁, hargs, h⟩ := bind_eq_ok_iff.mp h
    cases args with
    | none => exact absurd h reject_ne_some
    | some args =>
      dsimp only at h
      split at h
      · exact absurd h reject_ne_some
      next hmany => exact .function hrest hargs (Nat.lt_of_not_le hmany) h
  | empty =>
    rw [scan_empty hroom] at h
    exact .empty h
  | named =>
    by_cases hrest : rest = []
    · rw [hrest, scan_named_alone hroom] at h
      exact absurd h reject_ne_some
    rw [scan_named hroom hrest] at h
    obtain ⟨value, p₁, hvalue, h⟩ := bind_eq_ok_iff.mp h
    cases value with
    | none => cases h
    | some value => exact .named hrest hvalue h
  | plain hplain hnonempty =>
    rw [scan_plain hroom hplain hnonempty] at h
    obtain ⟨literal, p₁, hliteral, h⟩ := bind_eq_ok_iff.mp h
    obtain ⟨hnumber, rfl⟩ := lift_eq_ok_iff.mp hliteral
    cases literal with
    | some value => exact .literal hnumber h
    | none =>
      obtain ⟨value, p₂, hvalue, h⟩ := bind_eq_ok_iff.mp h
      cases value with
      | none => cases h
      | some value => exact .name hnonempty hplain hnumber hvalue h

section Scan

variable {lookup : Lookup} {o : String → MetricLookup} {expecting : String}

theorem namedValue_sound (hl : Answers lookup o) {name whole : String} {value : Float} {p p' : Progress}
    (h : namedValue lookup expecting name whole p = .ok (some value) p') : o name = .found value := by
  obtain ⟨p₁, hanswer⟩ := hl name p
  simp only [namedValue, bind, EStateM.bind, hanswer] at h
  cases ho : o name with
  | missing => rw [ho] at h; exact absurd h reject_ne_some
  | invalid => rw [ho] at h; exact absurd h reject_ne_some
  | found value' => rw [ho] at h; cases h; rfl

theorem namedValue_complete (hl : Answers lookup o) (expecting : String) {name : String} {value : Float}
    (h : o name = .found value) (whole : String) (p : Progress) :
    ∃ p', namedValue lookup expecting name whole p = .ok (some value) p' := by
  obtain ⟨p', hanswer⟩ := hl name p
  refine ⟨p', ?_⟩
  simp only [namedValue, bind, EStateM.bind, hanswer, h]
  rfl

/-! ### The evaluator and the values of words -/

/-- What has been found is what was read before and the values of the words after it, as many as requested. -/
structure Completes (known : String → Float → Prop) (requested : Option Int) (read : Extraction)
    (words : List String) (found : Extraction) : Prop where
  finite : ∀ value ∈ found.values, value.isFinite = true
  complete : ∀ count, requested = some count → (found.values.length : Int) = count
  reads : ∃ values, found.values = read.values ++ values ∧ Reads known words values

/-- The value of a word is read, and the rest goes on from there. -/
theorem Completes.cons {known : String → Float → Prop} {requested : Option Int} {read found : Extraction}
    {word : String} {rest : List String} {value : Float} {dependencies : List Dependency}
    (h : Completes known requested (read ++ Extraction.single value dependencies) rest found)
    (hword : ∀ values, value.isFinite = true → Reads known rest values →
      Reads known (word :: rest) (value :: values)) : Completes known requested read (word :: rest) found := by
  obtain ⟨values, hvalues, hreads⟩ := h.reads
  rw [Extraction.values_append_single] at hvalues
  have hvalue : value.isFinite = true := h.finite value (by simp [hvalues])
  exact ⟨h.finite, h.complete, _, hvalues, hword values hvalue hreads⟩

/-- All words together have one value, which is judged. -/
theorem Completes.last {known : String → Float → Prop} {requested : Option Int} {read found : Extraction}
    {words : List String} {value : Float} {dependencies : List Dependency} {whole : String} {p p' : Progress}
    (hroom : read.HasRoom requested)
    (h : conclude expecting whole requested [] (read ++ Extraction.single value dependencies) p =
      .ok (some found) p')
    (hword : value.isFinite = true → Reads known words [value]) : Completes known requested read words found := by
  obtain ⟨rfl, -, hfinite, -, hcount⟩ := conclude_eq_ok_iff.mp h
  have hvalue : value.isFinite = true := hfinite value (List.mem_append.mpr (.inr (List.mem_singleton_self value)))
  refine ⟨hfinite, fun count hc => ?_, [value], rfl, hword hvalue⟩
  exact Int.le_antisymm (hroom.length_single_le _ _ count hc) (hcount count hc)

theorem scan_sound (hl : Answers lookup o) {words : List String} {whole : String} {requested : Option Int}
    {read found : Extraction} {p p' : Progress}
    (hfits : ∀ count, requested = some count → read.values.length ≤ count)
    (h : scan lookup expecting words whole requested read p = .ok (some found) p') :
    Completes (fun name value => o name = .found value) requested read words found := by
  induction words generalizing whole requested read found p p' with
  | nil =>
    obtain ⟨rfl, -, hfinite, -, hcount⟩ := conclude_eq_ok_iff.mp h
    refine ⟨hfinite, fun count hc => ?_, ⟨[], by simp, .done⟩⟩
    exact Int.le_antisymm (hfits count hc) (hcount count hc)
  | cons word rest ih =>
    obtain ⟨hroom, hfinishes⟩ := scan_finishes h
    have later {value : Float} {dependencies : List Dependency} {p₁ : Progress}
        (hscan : scan lookup expecting rest whole requested (read ++ .single value dependencies) p₁ =
          .ok (some found) p') := ih (hroom.length_single_le value dependencies) hscan
    cases hfinishes with
    | empty hscan => exact (later hscan).cons fun values _ hreads => .empty hreads
    | literal hnumber hscan => exact (later hscan).cons fun values hfinite hreads => .literal hnumber hfinite hreads
    | name hnonempty hplain hnumber hvalue hscan =>
      have hknown := namedValue_sound hl hvalue
      exact (later hscan).cons fun values _ hreads => .name hnonempty hplain hnumber hknown hreads
    | named hrest hvalue hconclude =>
      exact .last hroom hconclude fun _ => .named hrest (namedValue_sound hl hvalue)
    | @function _ _ args _ hrest hargs hmany hconclude =>
      obtain ⟨-, -, values, hvalues, hreads⟩ := ih (by simp) hargs
      obtain rfl : args.values = values := by simpa using hvalues
      exact .last hroom hconclude fun hfinite =>
        .function hrest hreads hmany (MetricFunction.gives_apply hmany) hfinite

theorem conclude_last {requested : Option Int} {read : Extraction} {value : Float}
    (hread : ∀ value ∈ read.values, value.isFinite = true) (hvalue : value.isFinite = true)
    (hcount : ∀ count, requested = some count → ((read.values ++ [value]).length : Int) = count)
    (expecting whole : String) (dependencies : List Dependency) (p : Progress) :
    ∃ found p', conclude expecting whole requested [] (read ++ Extraction.single value dependencies) p =
      .ok (some found) p' ∧ found.values = read.values ++ [value] := by
  refine ⟨read ++ Extraction.single value dependencies, p, conclude_eq_ok_iff.mpr ⟨rfl, rfl, ?_, rfl, ?_⟩, rfl⟩
  · exact Extraction.isFinite_append_single hread hvalue
  · intro count hc
    exact Int.le_of_eq (hcount count hc).symm

/-- The values of words are found, if names are looked up truthfully and have finite values. -/
theorem scan_complete (hl : Answers lookup o) (hfinite : ∀ name value, o name = .found value → value.isFinite = true)
    {words : List String} {values : List Float} (h : Reads (fun name value => o name = .found value) words values)
    {whole : String} {requested : Option Int} {read : Extraction}
    (hread : ∀ value ∈ read.values, value.isFinite = true)
    (hcount : ∀ count, requested = some count → ((read.values ++ values).length : Int) = count) (p : Progress) :
    ∃ found p', scan lookup expecting words whole requested read p = .ok (some found) p' ∧
      found.values = read.values ++ values := by
  induction h generalizing whole requested read p with
  | done =>
    refine ⟨read, p, conclude_eq_ok_iff.mpr ⟨rfl, rfl, hread, rfl, fun count hc => ?_⟩, by simp⟩
    have hlength := hcount count hc
    rw [List.append_nil] at hlength
    exact Int.le_of_eq hlength.symm
  | @empty rest values _ ih =>
    have hroom : read.HasRoom requested := .of_length hcount
    rw [← Extraction.values_append_single 0.0 []] at hcount ⊢
    rw [scan_empty hroom]
    exact ih (Extraction.isFinite_append_single hread rfl) hcount p
  | @literal word rest value values hnumber hvalue _ ih =>
    obtain ⟨hplain, hnonempty⟩ := isPlain_of_number hnumber
    have hroom : read.HasRoom requested := .of_length hcount
    rw [← Extraction.values_append_single value []] at hcount ⊢
    rw [scan_plain hroom hplain hnonempty, hnumber]
    exact ih (Extraction.isFinite_append_single hread hvalue) hcount p
  | @name word rest value values hnonempty hplain hnumber hknown _ ih =>
    have hroom : read.HasRoom requested := .of_length hcount
    obtain ⟨p₁, hnamed⟩ := namedValue_complete hl expecting hknown whole p
    rw [← Extraction.values_append_single value [⟨.metric, word⟩]] at hcount ⊢
    obtain ⟨found, p', hscan, hvalues⟩ :=
      ih (Extraction.isFinite_append_single hread (hfinite _ _ hknown)) hcount p₁
    refine ⟨found, p', ?_, hvalues⟩
    rw [scan_plain hroom hplain hnonempty, hnumber]
    exact bind_eq_ok_iff.mpr ⟨none, p, rfl, bind_eq_ok_iff.mpr ⟨some value, p₁, hnamed, hscan⟩⟩
  | @named rest value hrest hknown =>
    have hroom : read.HasRoom requested := .of_length hcount
    obtain ⟨p₁, hnamed⟩ := namedValue_complete hl expecting hknown whole p
    obtain ⟨found, p', hconclude, hvalues⟩ :=
      conclude_last hread (hfinite _ _ hknown) hcount expecting whole [⟨.metric, ofWords rest⟩] p₁
    refine ⟨found, p', ?_, hvalues⟩
    rw [scan_named hroom hrest]
    exact bind_eq_ok_iff.mpr ⟨some value, p₁, hnamed, hconclude⟩
  | @function function rest args value hrest _ hmany hgives hvalue ih =>
    have hroom : read.HasRoom requested := .of_length hcount
    have hinner : ∃ found p', scan lookup expecting rest (ofWords rest) none {} p = .ok (some found) p' ∧
        found.values = [] ++ args := ih (by simp) (by simp) p
    obtain ⟨inner, p₁, hscan, hargs⟩ := hinner
    obtain rfl : inner.values = args := by simpa using hargs
    obtain ⟨found, p', hconclude, hvalues⟩ :=
      conclude_last hread hvalue hcount expecting whole inner.dependencies p₁
    refine ⟨found, p', ?_, hvalues⟩
    rw [scan_function hroom function hrest]
    refine bind_eq_ok_iff.mpr ⟨some inner, p₁, hscan, ?_⟩
    dsimp only
    rw [if_neg (Nat.not_le.mpr hmany), ← hgives.eq_apply]
    exact hconclude

/-! ### One value of a text -/

theorem extractOne_sound (hl : Answers lookup o) {text : String} {value : Float} {dependencies : List Dependency}
    {p p' : Progress} (h : extractOne lookup expecting text p = .ok (some (value, dependencies)) p') :
    value.isFinite = true ∧
      Reads (fun name value => o name = .found value) (words (Text.withoutSpaces text)) [value] := by
  obtain ⟨read, p₁, hextract, hone⟩ := bind_eq_ok_iff.mp h
  rcases read with _ | ⟨_ | ⟨first, others⟩, used⟩
  · cases hone
  · cases hone
  cases hone
  obtain ⟨hfinite, hcount, values, hvalues, hreads⟩ := scan_sound hl (by simp) hextract
  obtain rfl : others = [] := by
    have hlength := hcount 1 rfl
    simp only [List.length_cons] at hlength
    exact List.eq_nil_of_length_eq_zero (by omega)
  obtain rfl : [value] = values := hvalues
  exact ⟨hfinite value (List.mem_singleton_self value), hreads⟩

theorem extractOne_complete (hl : Answers lookup o)
    (hfinite : ∀ name value, o name = .found value → value.isFinite = true) {text : String} {value : Float}
    (h : Reads (fun name value => o name = .found value) (words (Text.withoutSpaces text)) [value])
    (p : Progress) :
    ∃ dependencies p', extractOne lookup expecting text p = .ok (some (value, dependencies)) p' := by
  have hscan : ∃ found p', extract lookup expecting (Text.withoutSpaces text) (some 1) p = .ok (some found) p' ∧
      found.values = [] ++ [value] :=
    scan_complete hl hfinite h (by simp) (by simp) p
  obtain ⟨⟨values, dependencies⟩, p', hextract, hvalues⟩ := hscan
  obtain rfl : values = [value] := hvalues
  exact ⟨dependencies, p', bind_eq_ok_iff.mpr ⟨some ⟨[value], dependencies⟩, p', hextract, rfl⟩⟩

/-- The value of a metric is that of its text, and finite. -/
theorem compute_sound (hl : Answers lookup o) {name text : String} {value : Float} {p p' : Progress}
    (h : compute lookup name text p = .ok (some value) p') :
    text ≠ "" ∧ value.isFinite = true ∧
      Reads (fun name value => o name = .found value) (words (Text.withoutSpaces text)) [value] := by
  unfold compute at h
  split at h
  · cases h
  next htext =>
  obtain ⟨x, p₁, hone, h⟩ := bind_eq_ok_iff.mp h
  cases x with
  | none => cases h
  | some x =>
    cases h
    exact ⟨by simpa [String.isEmpty_iff] using htext, extractOne_sound hl hone⟩

theorem compute_complete (hl : Answers lookup o)
    (hfinite : ∀ name value, o name = .found value → value.isFinite = true) {name text : String} {value : Float}
    (htext : text ≠ "")
    (h : Reads (fun name value => o name = .found value) (words (Text.withoutSpaces text)) [value])
    (p : Progress) : ∃ p', compute lookup name text p = .ok (some value) p' := by
  obtain ⟨dependencies, p₁, hone⟩ := extractOne_complete hl hfinite h p
  obtain ⟨p', hdepend⟩ : ∃ p', dependOn .metric name dependencies p₁ = .ok () p' := ⟨_, rfl⟩
  refine ⟨p', ?_⟩
  simp only [compute, String.isEmpty_iff, htext, if_false]
  exact bind_eq_ok_iff.mpr ⟨some (value, dependencies), p₁, hone, bind_eq_ok_iff.mpr ⟨(), p', hdepend, rfl⟩⟩

end Scan

end Metric

end DesignTokens
