import DesignTokens.Resolution.Metric

/-!
# The meaning of metric expressions

`Metric.Denotes` says which values an expression stands for among the metrics of a document. It is a relation
between texts and lists of numbers that mentions neither cells nor an order of evaluation, and an expression
whose names lead back to it simply has no derivation.

The evaluator reads words, one after the other, and knows of names what it is told. `Metric.Reads` is the
relation in between: over words, with the values of names given.

* `MetricFunction.gives_apply` — a function has a value for arguments that are not too few.
* `Metric.Denotes.reads`, `Metric.Reads.denotes` — words and texts have the same values.
-/

namespace DesignTokens

/-- The value that a function gives for its arguments. `switch` counts its options from zero. -/
inductive MetricFunction.Gives : MetricFunction → List Float → Float → Prop where
  | option {selector value : Float} {options : List Float} {i : Nat}
      (hselector : Number.equalsInt selector i = true) (hoption : options[i]? = some value) :
      Gives .switch (selector :: options) value
  | last {selector value : Float} {options : List Float}
      (hselector : ∀ i < options.length, Number.equalsInt selector i = false)
      (hlast : options.getLast? = some value) : Gives .switch (selector :: options) value
  | fold {function : MetricFunction} {args : List Float} (hfunction : function ≠ .switch) :
      Gives function args (function.apply args)

namespace MetricFunction

theorem Gives.eq_apply {function : MetricFunction} {args : List Float} {value : Float}
    (h : function.Gives args value) : value = function.apply args := by
  cases h with
  | @option selector value options i hselector hoption =>
    have hlt : i < options.length := (List.getElem?_eq_some_iff.mp hoption).1
    simp only [Number.equalsInt, Bool.and_eq_true, beq_iff_eq] at hselector
    have hvalue : options[i] = value := (List.getElem?_eq_some_iff.mp hoption).2
    simp [apply, select, hselector.1, hselector.2, hlt, hvalue]
  | @last selector value options hselector hlast =>
    simp only [apply, select, List.headD_cons, List.tail_cons, hlast, Option.getD_some]
    split
    · next index hindex =>
      split
      · next hin =>
        obtain ⟨hinteger, hnonneg, hlt⟩ := hin
        have hequals : Number.equalsInt selector index.toNat = true := by
          rw [Int.toNat_of_nonneg hnonneg]
          simp [Number.equalsInt, hinteger, hindex]
        rw [hselector index.toNat (by omega)] at hequals
        cases hequals
      · rfl
    · rfl
  | fold => rfl

/-- A function gives a value for arguments that are not too few. -/
theorem gives_apply {function : MetricFunction} {args : List Float} (h : function.tooFew < args.length) :
    function.Gives args (function.apply args) := by
  by_cases hfunction : function = .switch
  · subst hfunction
    obtain ⟨selector, options, rfl⟩ := List.exists_cons_of_length_pos (by omega : 0 < args.length)
    have hgives : ∃ value, Gives .switch (selector :: options) value := by
      by_cases hin : ∃ i < options.length, Number.equalsInt selector i = true
      · obtain ⟨i, hi, hselector⟩ := hin
        exact ⟨options[i], .option hselector (List.getElem?_eq_getElem hi)⟩
      · have hne : options ≠ [] := by
          rintro rfl
          simp [tooFew] at h
        refine ⟨options.getLast hne, .last (fun i hi => ?_) (List.getLast?_eq_some_getLast hne)⟩
        exact Bool.eq_false_iff.mpr fun hselector => hin ⟨i, hi, hselector⟩
    obtain ⟨value, hvalue⟩ := hgives
    exact hvalue.eq_apply ▸ hvalue
  · exact .fold hfunction

end MetricFunction

namespace Metric

/-- A word that is neither a function nor the mark of a name. -/
structure IsPlain (word : String) : Prop where
  noFunction : MetricFunction.ofWord? word = none
  noMark : word ≠ "named"

/-- The values that an expression without spaces stands for among metrics. -/
inductive Denotes (metrics : Mapping String) : String → List Float → Prop where
  | empty : Denotes metrics "" [0.0]
  | literal {word : String} {value : Float} (hword : '/' ∉ word.toList)
      (hnumber : Number.Literal.number? word = .ok (some value)) (hfinite : value.isFinite = true) :
      Denotes metrics word [value]
  | name {word text : String} {value : Float} (hword : '/' ∉ word.toList) (hnonempty : word ≠ "")
      (hplain : IsPlain word) (hnumber : Number.Literal.number? word = .ok none)
      (hentry : metrics.find? word = some text) (htext : text ≠ "")
      (hvalue : Denotes metrics (Text.withoutSpaces text) [value]) : Denotes metrics word [value]
  | named {name text : String} {value : Float} (hentry : metrics.find? name = some text) (htext : text ≠ "")
      (hvalue : Denotes metrics (Text.withoutSpaces text) [value]) :
      Denotes metrics ("named" ++ "/" ++ name) [value]
  | function {function : MetricFunction} {rest : String} {args : List Float} {value : Float}
      (hargs : Denotes metrics rest args) (hmany : function.tooFew < args.length)
      (hgives : function.Gives args value) (hfinite : value.isFinite = true) :
      Denotes metrics (function.name ++ "/" ++ rest) [value]
  | append {word rest : String} {values others : List Float} (hword : '/' ∉ word.toList)
      (hplain : IsPlain word) (hfirst : Denotes metrics word values) (hrest : Denotes metrics rest others) :
      Denotes metrics (word ++ "/" ++ rest) (values ++ others)

/-- The values of words, given the values of names. -/
inductive Reads (known : String → Float → Prop) : List String → List Float → Prop where
  | done : Reads known [] []
  | empty {rest : List String} {values : List Float} (hrest : Reads known rest values) :
      Reads known ("" :: rest) (0.0 :: values)
  | literal {word : String} {rest : List String} {value : Float} {values : List Float}
      (hnumber : Number.Literal.number? word = .ok (some value)) (hfinite : value.isFinite = true)
      (hrest : Reads known rest values) : Reads known (word :: rest) (value :: values)
  | name {word : String} {rest : List String} {value : Float} {values : List Float} (hnonempty : word ≠ "")
      (hplain : IsPlain word) (hnumber : Number.Literal.number? word = .ok none) (hknown : known word value)
      (hrest : Reads known rest values) : Reads known (word :: rest) (value :: values)
  | named {rest : List String} {value : Float} (hrest : rest ≠ []) (hknown : known (ofWords rest) value) :
      Reads known ("named" :: rest) [value]
  | function {function : MetricFunction} {rest : List String} {args : List Float} {value : Float}
      (hrest : rest ≠ []) (hargs : Reads known rest args) (hmany : function.tooFew < args.length)
      (hgives : function.Gives args value) (hfinite : value.isFinite = true) :
      Reads known (function.name :: rest) [value]

/-- The names that words use. -/
def names : List String → List String
  | [] => []
  | word :: rest =>
    match MetricFunction.ofWord? word with
    | some _ => names rest
    | none =>
      if word.isEmpty then names rest
      else if word = "named" then if rest.isEmpty then [] else [ofWords rest]
      else
        match Number.Literal.number? word with
        | .ok none => word :: names rest
        | _ => names rest

/-! ### Words -/

theorem words_of_not_mem {word : String} (h : '/' ∉ word.toList) : words word = [word] := by
  rw [words, List.splitOn_eq_singleton h, List.map_singleton, String.ofList_toList]

theorem words_append {word : String} (h : '/' ∉ word.toList) (rest : String) :
    words (word ++ "/" ++ rest) = word :: words rest := by
  have hlist : (word ++ "/" ++ rest).toList = word.toList ++ '/' :: rest.toList := by simp
  rw [words, hlist, List.splitOn_append_cons_self_of_not_mem h, List.map_cons, String.ofList_toList]
  rfl

theorem words_ne_nil (s : String) : words s ≠ [] := by
  simp [words, List.splitOn_ne_nil]

theorem ofWords_words (s : String) : ofWords (words s) = s := by
  rw [← String.toList_inj, ofWords, String.toList_intercalate, words, List.map_map]
  have hid : (String.toList ∘ String.ofList) = id := by funext cs; simp
  rw [hid, List.map_id]
  exact List.intercalate_splitOn '/'

/-- One character more adds an empty part or makes one part longer. -/
theorem mem_splitOn_cons {c : Char} {rest part : List Char} (h : part ∈ (c :: rest).splitOn '/') :
    part = [] ∨ part ∈ rest.splitOn '/' ∨ c ≠ '/' ∧ ∃ first ∈ rest.splitOn '/', part = c :: first := by
  rw [List.splitOn_cons_eq_if_modifyHead] at h
  split at h
  · exact (List.mem_cons.mp h).imp_right .inl
  · next hc =>
    cases hparts : rest.splitOn '/' with
    | nil => exact absurd hparts (List.splitOn_ne_nil _ _)
    | cons first others =>
      rw [hparts, List.modifyHead_cons] at h
      rcases List.mem_cons.mp h with rfl | h
      · exact .inr (.inr ⟨by simpa using hc, first, List.mem_cons_self .., rfl⟩)
      · exact .inr (.inl (List.mem_cons_of_mem _ h))

theorem not_mem_of_mem_splitOn {cs part : List Char} (h : part ∈ cs.splitOn '/') : '/' ∉ part := by
  induction cs generalizing part with
  | nil => simp_all
  | cons c rest ih =>
    rcases mem_splitOn_cons h with rfl | h | ⟨hc, first, hfirst, rfl⟩
    · exact List.not_mem_nil
    · exact ih h
    · simp [hc.symm, ih hfirst]

theorem not_mem_of_mem_words {s word : String} (h : word ∈ words s) : '/' ∉ word.toList := by
  obtain ⟨part, hpart, rfl⟩ := List.mem_map.mp h
  rw [String.toList_ofList]
  exact not_mem_of_mem_splitOn hpart

theorem ofWords_singleton (word : String) : ofWords [word] = word := by
  simp [ofWords]

theorem ofWords_cons {word : String} {rest : List String} (h : rest ≠ []) :
    ofWords (word :: rest) = word ++ "/" ++ ofWords rest := String.intercalate_cons_of_ne_nil h

/-! ### Words that mean something by themselves -/

theorem number?_function (function : MetricFunction) : Number.Literal.number? function.name = .ok none := by
  cases function <;> rfl

theorem number?_named : Number.Literal.number? "named" = .ok none := rfl

theorem number?_empty : Number.Literal.number? "" = .ok none := rfl

theorem ofWord?_name (function : MetricFunction) : MetricFunction.ofWord? function.name = some function := by
  cases function <;> decide

theorem name_of_ofWord? {word : String} {function : MetricFunction}
    (h : MetricFunction.ofWord? word = some function) : word = function.name := by
  unfold MetricFunction.ofWord? at h
  have hname := List.find?_some h
  exact (beq_iff_eq.mp hname).symm

theorem not_mem_name (function : MetricFunction) : '/' ∉ function.name.toList := by
  cases function <;> decide

theorem isPlain_empty : IsPlain "" := ⟨by decide, by decide⟩

theorem isPlain_of_number {word : String} {value : Float}
    (h : Number.Literal.number? word = .ok (some value)) : IsPlain word ∧ word ≠ "" := by
  refine ⟨⟨?_, ?_⟩, ?_⟩
  · cases hf : MetricFunction.ofWord? word with
    | none => rfl
    | some function =>
      rw [name_of_ofWord? hf, number?_function] at h
      cases h
  · rintro rfl
    rw [number?_named] at h
    cases h
  · rintro rfl
    rw [number?_empty] at h
    cases h

/-! ### Names -/

section Names

variable {word : String} {rest : List String}

theorem names_function (function : MetricFunction) : names (function.name :: rest) = names rest := by
  simp only [names, ofWord?_name]

theorem names_empty : names ("" :: rest) = names rest := by
  rw [names, isPlain_empty.noFunction]
  rfl

theorem names_named (hrest : rest ≠ []) : names ("named" :: rest) = [ofWords rest] := by
  have hfunction : MetricFunction.ofWord? "named" = none := by decide
  have hnonempty : "named" ≠ "" := by decide
  simp [names, hfunction, hnonempty, hrest]

theorem names_literal {value : Float} (hnumber : Number.Literal.number? word = .ok (some value)) :
    names (word :: rest) = names rest := by
  obtain ⟨hplain, hnonempty⟩ := isPlain_of_number hnumber
  simp [names, hplain.noFunction, hnonempty, hplain.noMark, hnumber]

theorem names_name (hplain : IsPlain word) (hnonempty : word ≠ "") (hnumber : Number.Literal.number? word = .ok none) :
    names (word :: rest) = word :: names rest := by
  simp [names, hplain.noFunction, hnonempty, hplain.noMark, hnumber]

end Names

/-! ### Texts and their words -/

/-- What a text denotes is finite. -/
theorem Denotes.isFinite {metrics : Mapping String} {s : String} {values : List Float} (h : Denotes metrics s values) :
    ∀ value ∈ values, value.isFinite = true := by
  induction h with
  | empty => exact List.forall_mem_singleton.mpr rfl
  | literal _ _ hfinite => exact List.forall_mem_singleton.mpr hfinite
  | name _ _ _ _ _ _ _ ih => exact ih
  | named _ _ _ ih => exact ih
  | function _ _ _ hfinite _ => exact List.forall_mem_singleton.mpr hfinite
  | append _ _ _ _ ihfirst ihrest => exact List.forall_mem_append.mpr ⟨ihfirst, ihrest⟩

/-- The value of a metric by the meaning of its text. -/
def HasValue (metrics : Mapping String) (name : String) (value : Float) : Prop :=
  ∃ text, metrics.find? name = some text ∧ text ≠ "" ∧ Denotes metrics (Text.withoutSpaces text) [value]

theorem HasValue.isFinite {metrics : Mapping String} {name : String} {value : Float}
    (h : HasValue metrics name value) : value.isFinite = true := by
  obtain ⟨text, -, -, hdenotes⟩ := h
  exact hdenotes.isFinite value (List.mem_singleton_self value)

section Reads

variable {metrics : Mapping String} {known : String → Float → Prop}

theorem Reads.mono {known' : String → Float → Prop} {ws : List String} {values : List Float}
    (h : Reads known ws values) (hknown : ∀ name value, known name value → known' name value) :
    Reads known' ws values := by
  induction h with
  | done => exact .done
  | empty _ ih => exact .empty ih
  | literal hnumber hfinite _ ih => exact .literal hnumber hfinite ih
  | name hnonempty hplain hnumber hk _ ih => exact .name hnonempty hplain hnumber (hknown _ _ hk) ih
  | named hrest hk => exact .named hrest (hknown _ _ hk)
  | function hrest _ hmany hgives hfinite ih => exact .function hrest ih hmany hgives hfinite

/-- Words that have values use known names only. -/
theorem Reads.known_of_mem_names {ws : List String} {values : List Float} (h : Reads known ws values) {name : String}
    (hmem : name ∈ names ws) : ∃ value, known name value := by
  induction h with
  | done => cases hmem
  | empty _ ih =>
    rw [names_empty] at hmem
    exact ih hmem
  | literal hnumber _ _ ih =>
    rw [names_literal hnumber] at hmem
    exact ih hmem
  | name hnonempty hplain hnumber hknown _ ih =>
    rw [names_name hplain hnonempty hnumber] at hmem
    rcases List.mem_cons.mp hmem with rfl | hmem
    · exact ⟨_, hknown⟩
    · exact ih hmem
  | named hrest hknown =>
    rw [names_named hrest] at hmem
    obtain rfl := List.mem_singleton.mp hmem
    exact ⟨_, hknown⟩
  | function _ _ _ _ _ ih =>
    rw [names_function] at hmem
    exact ih hmem

/-- The values of a plain word stand before those of the words after it. -/
theorem Reads.append {word : String} {rest : List String} {values others : List Float}
    (hfirst : Reads known [word] values) (hplain : IsPlain word) (hrest : Reads known rest others) :
    Reads known (word :: rest) (values ++ others) := by
  cases hfirst with
  | empty hnil => cases hnil; exact .empty hrest
  | literal hnumber hfinite hnil => cases hnil; exact .literal hnumber hfinite hrest
  | name hnonempty _ hnumber hk hnil => cases hnil; exact .name hnonempty hplain hnumber hk hrest
  | named hne _ => exact absurd rfl hne
  | function hne _ _ _ _ => exact absurd rfl hne

/-- The words of a text have its values, if names have the values of their texts. -/
theorem Denotes.reads {s : String} {values : List Float} (h : Denotes metrics s values)
    (hclosed : ∀ name text value, metrics.find? name = some text → text ≠ "" →
      Reads known (words (Text.withoutSpaces text)) [value] → known name value) :
    Reads known (words s) values := by
  induction h with
  | empty =>
    rw [words_of_not_mem (by decide)]
    exact .empty .done
  | literal hword hnumber hfinite =>
    rw [words_of_not_mem hword]
    exact .literal hnumber hfinite .done
  | name hword hnonempty hplain hnumber hentry htext _ ih =>
    rw [words_of_not_mem hword]
    exact .name hnonempty hplain hnumber (hclosed _ _ _ hentry htext ih) .done
  | @named name text value hentry htext _ ih =>
    rw [words_append (by decide)]
    refine .named (words_ne_nil name) ?_
    rw [ofWords_words]
    exact hclosed _ _ _ hentry htext ih
  | @function function rest args value _ hmany hgives hfinite ih =>
    rw [words_append (not_mem_name function)]
    exact .function (words_ne_nil rest) ih hmany hgives hfinite
  | append hword hplain _ _ ihfirst ihrest =>
    rw [words_of_not_mem hword] at ihfirst
    rw [words_append hword]
    exact ihfirst.append hplain ihrest

/-- A text has the values of its words. -/
theorem Denotes.cons {word : String} {rest : List String} {value : Float} {values : List Float}
    (hfirst : Denotes metrics word [value]) (hword : '/' ∉ word.toList) (hplain : IsPlain word)
    (hnil : rest = [] → values = []) (hrest : rest ≠ [] → Denotes metrics (ofWords rest) values) :
    Denotes metrics (ofWords (word :: rest)) (value :: values) := by
  by_cases hempty : rest = []
  · rw [hnil hempty, hempty, ofWords_singleton]
    exact hfirst
  · rw [ofWords_cons hempty]
    exact .append hword hplain hfirst (hrest hempty)

theorem Reads.denotes {ws : List String} {values : List Float} (h : Reads (HasValue metrics) ws values)
    (hne : ws ≠ []) (hwords : ∀ word ∈ ws, '/' ∉ word.toList) : Denotes metrics (ofWords ws) values := by
  have nil {rest : List String} {values : List Float} (h : Reads (HasValue metrics) rest values)
      (hrest : rest = []) : values = [] := by
    subst hrest
    cases h
    rfl
  induction h with
  | done => exact absurd rfl hne
  | empty hrest ih =>
    exact Denotes.empty.cons (by decide) isPlain_empty (nil hrest)
      fun hne => ih hne fun word hmem => hwords word (List.mem_cons_of_mem _ hmem)
  | literal hnumber hfinite hrest ih =>
    have hword := hwords _ (List.mem_cons_self ..)
    exact (Denotes.literal hword hnumber hfinite).cons hword (isPlain_of_number hnumber).1 (nil hrest)
      fun hne => ih hne fun word hmem => hwords word (List.mem_cons_of_mem _ hmem)
  | name hnonempty hplain hnumber hk hrest ih =>
    have hword := hwords _ (List.mem_cons_self ..)
    obtain ⟨text, hentry, htext, hvalue⟩ := hk
    exact (Denotes.name hword hnonempty hplain hnumber hentry htext hvalue).cons hword hplain (nil hrest)
      fun hne => ih hne fun word hmem => hwords word (List.mem_cons_of_mem _ hmem)
  | named hrest hk =>
    obtain ⟨text, hentry, htext, hvalue⟩ := hk
    rw [ofWords_cons hrest]
    exact .named hentry htext hvalue
  | function hrest _ hmany hgives hfinite ih =>
    rw [ofWords_cons hrest]
    exact .function (ih hrest fun word hmem => hwords word (List.mem_cons_of_mem _ hmem)) hmany hgives hfinite

theorem Reads.denotes_words {s : String} {values : List Float} (h : Reads (HasValue metrics) (words s) values) :
    Denotes metrics s values := by
  have hdenotes := h.denotes (words_ne_nil s) fun word hmem => not_mem_of_mem_words hmem
  rwa [ofWords_words] at hdenotes

end Reads

end Metric

end DesignTokens
