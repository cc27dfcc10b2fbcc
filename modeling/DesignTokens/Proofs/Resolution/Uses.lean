import DesignTokens.Proofs.Metric.Scan
import DesignTokens.Proofs.Resolution.Account

/-!
# What entries use

Which other entries an entry uses can be read off its text: the names in its metric expressions and its references.
`Document.asks` lists them in the order in which they are asked about, and `Document.uses` adds the placement of an
image, which is looked up and not asked about. Of the rest of the document it only matters which color names are
names of entries.

The computation of every kind keeps account of these lists, and so do the parts it is made of.

* `Metric.compute_accounts`, `ColorText.compute_accounts`, `FontLayers.compute_accounts`,
  `TextLayers.compute_accounts`, `ImageLayers.compute_accounts`, `ButtonLayers.compute_accounts`
* `Reading.used_subset_uses` — no computation records anything beside what its entry uses.
* `Reading.account_of_result`, `Reading.mem_asked_iff` — a computation with a value has asked about and recorded all
  of it.
-/

namespace DesignTokens

variable {a : Asset} {owner : String}

/-- A reference that may be left out. -/
def Dependency.ofName? (k : Kind) (name : Option String) : List Dependency := name.toList.map (⟨k, ·⟩)

@[simp] theorem Dependency.ofName?_none (k : Kind) : ofName? k none = [] := rfl

@[simp] theorem Dependency.ofName?_some (k : Kind) (name : String) : ofName? k (some name) = [⟨k, name⟩] := rfl

namespace Metric

/-- The metrics that words name. -/
def wordUses (words : List String) : List Dependency := (names words).map (⟨.metric, ·⟩)

section WordUses

variable {word : String} {rest : List String}

theorem wordUses_function (function : MetricFunction) : wordUses (function.name :: rest) = wordUses rest := by
  rw [wordUses, names_function, wordUses]

theorem wordUses_empty : wordUses ("" :: rest) = wordUses rest := by
  rw [wordUses, names_empty, wordUses]

theorem wordUses_named (h : rest ≠ []) : wordUses ("named" :: rest) = [⟨.metric, ofWords rest⟩] := by
  rw [wordUses, names_named h, List.map_singleton]

theorem wordUses_literal {value : Float} (h : Number.Literal.number? word = .ok (some value)) :
    wordUses (word :: rest) = wordUses rest := by
  rw [wordUses, names_literal h, wordUses]

theorem wordUses_name (hplain : IsPlain word) (hnonempty : word ≠ "") (h : Number.Literal.number? word = .ok none) :
    wordUses (word :: rest) = ⟨.metric, word⟩ :: wordUses rest := by
  rw [wordUses, names_name hplain hnonempty h, List.map_cons, wordUses]

end WordUses

/-- The metrics that an expression names. -/
def uses (expression : String) : List Dependency := wordUses (words (Text.withoutSpaces expression))

/-- The metrics that the expressions of insets name. -/
def insetUses (raw : String) : List Dependency := (insetParts raw).flatMap uses

/-- The metrics that a number or an expression names. -/
def jsonUses : Json → List Dependency
  | .string expression => uses expression
  | _ => []

theorem namedValue_accounts (expecting name whole : String) :
    Accounts a owner [⟨.metric, name⟩] [] True (fun _ => True) (·.isSome = true)
      fun q => namedValue q.metric expecting name whole := by
  refine .metric fun x => ?_
  cases x with
  | missing => exact .reject trivial (by simp)
  | invalid => exact .reject trivial (by simp)
  | found value => exact .pure trivial (by simp)

theorem conclude_accounts (expecting whole : String) (requested : Option Int) (read : Extraction) :
    Accounts a owner [] [] True (fun x => ∀ found ∈ x, found = read) (·.isSome = true)
      fun _ => conclude expecting whole requested [] read := by
  unfold conclude
  split
  · exact .reject (by simp) (by simp)
  split
  · exact .reject (by simp) (by simp)
  split
  · exact .reject (by simp) (by simp)
  · exact .pure (by simp) (by simp)

/-- What is found has the dependencies of what was read before, and these. -/
def AddsUses (read : Extraction) (dependencies : List Dependency) (found : Option Extraction) : Prop :=
  ∀ extraction ∈ found, extraction.dependencies = read.dependencies ++ dependencies

theorem AddsUses.none {read : Extraction} {dependencies : List Dependency} : AddsUses read dependencies none := by
  simp [AddsUses]

/-- The dependencies of a value stand in front of those of the words behind it. -/
theorem AddsUses.after {read : Extraction} {value : Float} {dependencies others : List Dependency}
    {found : Option Extraction} (h : AddsUses (read ++ Extraction.single value dependencies) others found) :
    AddsUses read (dependencies ++ others) found := by
  intro extraction hfound
  rw [h extraction hfound, Extraction.dependencies_append, List.append_assoc]
  rfl

theorem last_accounts (expecting whole : String) (requested : Option Int) (read : Extraction) (value : Float)
    (dependencies : List Dependency) :
    Accounts a owner [] [] True (AddsUses read dependencies) (·.isSome = true)
      fun _ => conclude expecting whole requested [] (read ++ Extraction.single value dependencies) := by
  refine .imp (conclude_accounts ..) fun x hx found hfound => ?_
  rw [hx found hfound, Extraction.dependencies_append]
  rfl

theorem scan_accounts (expecting : String) (words : List String) (whole : String) (requested : Option Int)
    (read : Extraction) :
    Accounts a owner (wordUses words) [] True (AddsUses read (wordUses words)) (·.isSome = true)
      fun q => scan q.metric expecting words whole requested read := by
  induction words generalizing whole requested read with
  | nil =>
    refine .imp (conclude_accounts ..) fun x hx found hfound => ?_
    rw [hx found hfound, wordUses, names, List.map_nil, List.append_nil]
  | cons word rest ih =>
    by_cases hroom : read.HasRoom requested
    · cases wordKind word with
      | function function =>
        by_cases hrest : rest = []
        · subst hrest
          simp only [scan_function_alone hroom]
          exact .reject .none (by simp)
        simp only [scan_function hroom function hrest, wordUses_function]
        refine .bindLast (ih ..) fun args hargs => ?_
        cases args with
        | none => exact .reject .none (by simp)
        | some args =>
          have hdependencies : args.dependencies = wordUses rest := hargs args rfl
          rw [← hdependencies]
          dsimp only
          split
          · exact .reject .none (by simp)
          · exact .weaken (last_accounts ..) (by simp)
      | empty =>
        simp only [scan_empty hroom, wordUses_empty]
        exact .imp (ih ..) fun _ => AddsUses.after
      | named =>
        by_cases hrest : rest = []
        · subst hrest
          simp only [scan_named_alone hroom]
          exact .reject .none (by simp)
        simp only [scan_named hroom hrest, wordUses_named hrest]
        refine .bindLast (namedValue_accounts ..) fun value _ => ?_
        cases value with
        | none => exact .pure .none (by simp)
        | some value => exact .weaken (last_accounts ..) (by simp)
      | plain hplain hnonempty =>
        simp only [scan_plain hroom hplain hnonempty]
        cases hnumber : Number.Literal.number? word with
        | error fault => exact .throw
        | ok literal =>
          simp only [Resolve.lift, pure_bind]
          cases literal with
          | some value =>
            rw [wordUses_literal hnumber]
            exact .imp (ih ..) fun _ => AddsUses.after
          | none =>
            rw [wordUses_name hplain hnonempty hnumber]
            refine .bindRead (namedValue_accounts ..) fun value _ => ?_
            cases value with
            | none => exact .pure .none (by simp)
            | some value => exact .weaken (.imp (ih ..) fun _ => AddsUses.after) (by simp)
    · -- with as many values as requested and a word left there is no value
      simp only [scan_full hroom, conclude, List.isEmpty_cons, Bool.not_false, if_true]
      split
      · exact .reject .none (by simp)
      · exact .reject .none (by simp)

theorem extractOne_accounts (expecting expression : String) :
    Accounts a owner (uses expression) [] True (fun x => ∀ read ∈ x, read.2 = uses expression) (·.isSome = true)
      fun q => extractOne q.metric expecting expression := by
  refine .bindLast (scan_accounts ..) fun read hread => ?_
  rcases read with _ | ⟨_ | ⟨value, values⟩, dependencies⟩
  · exact .pure (by simp) (by simp)
  · exact .pure (by simp) (by simp)
  · exact .pure (by simpa [AddsUses, uses] using hread) (by simp)

theorem extractEach_accounts (expecting : String) (expressions : List String) :
    Accounts a owner (expressions.flatMap uses) [] True
      (fun x => ∀ read ∈ x, read.dependencies = expressions.flatMap uses) (·.isSome = true)
      fun q => extractEach q.metric expecting expressions := by
  induction expressions with
  | nil => exact .pure (by simp) (by simp)
  | cons expression rest ih =>
    refine .bindRead (extractOne_accounts ..) fun first hfirst => ?_
    rcases first with _ | ⟨value, dependencies⟩
    · exact .pure (by simp) (by simp)
    refine .bindLast (.weaken ih (by simp)) fun others hothers => ?_
    cases others with
    | none => exact .pure (by simp) (by simp)
    | some others =>
      have hboth : (Extraction.single value dependencies ++ others).dependencies =
          uses expression ++ rest.flatMap uses := by
        rw [Extraction.dependencies_append, hothers others rfl, ← hfirst _ rfl]
        rfl
      exact .pure (by simpa using hboth) (by simp)

theorem extractInsets_accounts (expecting raw : String) :
    Accounts a owner (insetUses raw) [] True (fun x => ∀ read ∈ x, read.dependencies = insetUses raw)
      (·.isSome = true) fun q => extractInsets q.metric expecting raw := by
  refine .bindLast (extractEach_accounts ..) fun read hread => ?_
  cases read with
  | none => exact .reject (by simp) (by simp)
  | some read =>
    dsimp only
    split
    · exact .pure hread (by simp)
    · exact .reject (by simp) (by simp)

theorem extractOneJson_accounts (expecting : String) (value : Json) :
    Accounts a owner (jsonUses value) [] True (fun x => ∀ read ∈ x, read.2 = jsonUses value) (·.isSome = true)
      fun q => extractOneJson q.metric expecting value := by
  cases value with
  | string expression => exact extractOne_accounts ..
  | _ => exact .pure (by simp [jsonUses]) (by simp [jsonUses])

theorem compute_accounts (name expression : String) :
    Accounts .metric name (uses expression) (uses expression) True (fun _ => True) (·.isSome = true)
      fun q => compute q.metric name expression := by
  unfold compute
  split
  · exact .pure trivial (by simp)
  refine .bindRecord (extractOne_accounts ..) fun read hread => ?_
  rcases read with _ | ⟨value, dependencies⟩
  · exact .pure trivial (by simp)
  · obtain rfl := hread _ rfl
    exact .dependLast (.pure trivial (by simp))

end Metric

namespace ColorText

/-- The entries that a color text names: a color if `named` makes a name of one, or metrics. -/
def uses (isEntry : String → Bool) (raw : String) : List Dependency :=
  match Metric.words (Text.withoutSpaces raw) with
  | [] => []
  | tag :: parts =>
    match ColorFormat.ofWord? tag with
    | none | some .web => []
    | some .named => if isEntry (parts.headD "") then [⟨.color, parts.headD ""⟩] else []
    | some _ => parts.flatMap Metric.uses

theorem webBytes_accounts (raw : String) (digits : List Char) (read : List Nat) :
    Accounts a owner [] [] True (fun _ => True) (·.isSome = true) fun _ => webBytes raw digits read := by
  fun_induction webBytes raw digits read with
  | case1 => assumption
  | case2 => exact .reject trivial (by simp)
  | case3 => exact .reject trivial (by simp)
  | case4 => exact .reject trivial (by simp)
  | case5 => exact .pure trivial (by simp)
  | case6 => exact .pure trivial (by simp)
  | case7 => exact .reject trivial (by simp)

theorem normalise_accounts (format : ColorFormat) (raw : String) (values : List (Float × String))
    (c : Components) :
    Accounts a owner [] [] True (fun _ => True) (·.isSome = true) fun _ => normalise format raw values c := by
  fun_induction normalise format raw values c with
  | case1 => exact .reject trivial (by simp)
  | case2 => exact .pure trivial (by simp)
  | case3 => assumption
  | case4 => assumption
  | case5 => exact .reject trivial (by simp)

theorem ofComponents_accounts (format : ColorFormat) (raw : String) (components : List Float) :
    Accounts a owner [] [] True (fun _ => True) (·.isSome = true)
      fun _ => ofComponents format raw components := by
  unfold ofComponents
  split
  · exact .pure trivial (by simp)
  · split
    · exact .lift fun color => .pure trivial (by simp)
    · exact .pure trivial (by simp)
  · exact .reject trivial (by simp)

theorem named_accounts (isEntry : String → Bool) (owner raw name : String) :
    Accounts .color owner (if isEntry name then [⟨.color, name⟩] else [])
      (if isEntry name then [⟨.color, name⟩] else []) True (fun _ => True) (·.isSome = true)
      fun q => named q.color isEntry owner raw name := by
  unfold named
  split
  · refine .dependLast (.color fun x => ?_)
    cases x with
    | missing => exact .reject trivial (by simp)
    | invalid => exact .reject trivial (by simp)
    | found color => exact .pure trivial (by simp)
  · split
    · exact .pure trivial (by simp)
    · exact .reject trivial (by simp)

theorem components_accounts (format : ColorFormat) (owner raw : String) (parts : List String) :
    Accounts .color owner (parts.flatMap Metric.uses) (parts.flatMap Metric.uses) True (fun _ => True)
      (·.isSome = true) (fun q => do
        match ← Metric.extractEach q.metric ("resolving color with format " ++ format.name) parts with
        | none => return none
        | some read =>
          Resolve.dependOn .color owner read.dependencies
          match ← normalise format raw (read.values.zip parts) {} with
          | none => return none
          | some components => ofComponents format raw components) := by
  refine .bindRecord (Metric.extractEach_accounts ..) fun read hread => ?_
  cases read with
  | none => exact .pure trivial (by simp)
  | some read =>
    simp only [hread read rfl]
    refine .dependLast (.bindLast (.weaken (normalise_accounts ..) (by simp)) fun components _ => ?_)
    cases components with
    | none => exact .pure trivial (by simp)
    | some components => exact .weaken (ofComponents_accounts ..) (by simp)

theorem compute_accounts (isEntry : String → Bool) (owner raw : String) :
    Accounts .color owner (uses isEntry raw) (uses isEntry raw) True (fun _ => True) (·.isSome = true)
      fun q => compute q.metric q.color isEntry owner raw := by
  unfold compute uses
  cases Metric.words (Text.withoutSpaces raw) with
  | nil => exact .reject trivial (by simp)
  | cons tag parts =>
    dsimp only
    cases ColorFormat.ofWord? tag with
    | none => exact .reject trivial (by simp)
    | some format =>
      dsimp only
      by_cases hparts : parts.length ≠ format.partCount
      · simp only [if_pos hparts]
        exact .reject trivial (by simp)
      simp only [if_neg hparts]
      cases format with
      | named => exact named_accounts ..
      | web =>
        refine .bindLast (webBytes_accounts ..) fun bytes _ => ?_
        cases bytes with
        | none => exact .pure trivial (by simp)
        | some bytes => exact .weaken (ofComponents_accounts ..) (by simp)
      | _ => exact components_accounts ..

end ColorText

namespace FontLayers

/-- The metrics that a declared font attribute names. -/
def attributeUses (member : String × Json) : List Dependency :=
  if member.1 = "size" then Metric.jsonUses member.2 else []

/-- The metrics that declared font attributes name. -/
def attributesUses : Option Json → List Dependency
  | some (.object declared) => declared.flatMap attributeUses
  | _ => []

/-- The font that an entry is based on. -/
def baseUses (entry : FontEntry) : List Dependency :=
  Dependency.ofName? .font (entry.basedOn.filter (!·.isEmpty))

/-- The metrics that the size of an entry names. -/
def sizeUses (entry : FontEntry) : List Dependency :=
  (entry.size.filter (!·.isEmpty)).toList.flatMap Metric.uses

/-- The entries that a font entry names. -/
def uses (entry : FontEntry) : List Dependency :=
  baseUses entry ++ (attributesUses entry.attributes ++ sizeUses entry)

theorem attributes_accounts (owner : String) (declared : List (String × Json)) (read : Mapping Json) :
    Accounts .font owner (declared.flatMap attributeUses) (declared.flatMap attributeUses) True (fun _ => True)
      (·.isSome = true) fun q => attributes q.metric owner declared read := by
  induction declared generalizing read with
  | nil => exact .pure trivial (by simp)
  | cons member rest ih =>
    obtain ⟨key, value⟩ := member
    simp only [attributes, List.flatMap_cons, attributeUses]
    by_cases hsize : key = "size"
    · subst hsize
      have hmarked : marked? "size" = none := by decide
      have hknown : descriptorKeys.contains "size" = true := by decide
      simp only [hmarked, hknown, Bool.not_true, Bool.false_eq_true, if_true, if_false]
      refine .bindRead (Metric.extractOneJson_accounts ..) fun size hsize => ?_
      rcases size with _ | ⟨size, dependencies⟩
      · exact .reject trivial (by simp)
      · obtain rfl := hsize _ rfl
        exact .dependOn (.weaken (ih ..) (by simp))
    · simp only [hsize, if_false, List.nil_append]
      split
      · exact ih ..
      split
      · exact .reject trivial (by simp)
      split
      · exact ih ..
      · split
        · exact .reject trivial (by simp)
        · exact ih ..

theorem realize_accounts (catalog : Catalog) (d : FontDescriptor) :
    Accounts a owner [] [] True (fun _ => True) (·.isSome = true) fun _ => realize catalog d := by
  refine .lift fun expected => ?_
  cases expected with
  | none => exact .reject trivial (by simp)
  | some expected =>
    refine .lift fun realized => ?_
    dsimp only
    split
    · exact .reject trivial (by simp)
    · exact .lift fun size => .pure trivial (by simp)

theorem baseDescriptor_accounts (owner : String) (entry : FontEntry) :
    Accounts .font owner (baseUses entry) (baseUses entry) True (fun _ => True) (·.isSome = true)
      fun q => baseDescriptor (q .font) owner entry := by
  unfold baseDescriptor baseUses
  cases entry.basedOn.filter (!·.isEmpty) with
  | none => exact .pure trivial (by simp)
  | some base =>
    rw [Dependency.ofName?_some]
    exact .dependLast (.bindLast (.fetch (b := .font)) fun font _ => .pure trivial (by simp))

theorem addAttributes_accounts (owner : String) (entry : FontEntry) (d : FontDescriptor) :
    Accounts .font owner (attributesUses entry.attributes) (attributesUses entry.attributes) True (fun _ => True)
      (·.isSome = true) fun q => addAttributes q.metric owner entry d := by
  unfold addAttributes
  cases entry.attributes with
  | none => exact .pure trivial (by simp [attributesUses])
  | some value =>
    cases value with
    | object declared =>
      exact .bindLast (attributes_accounts ..) fun declared _ => .pure trivial (by simp)
    | _ => exact .reject trivial (by simp)

theorem addSize_accounts (owner : String) (entry : FontEntry) (d : FontDescriptor) :
    Accounts .font owner (sizeUses entry) (sizeUses entry) True (fun _ => True) (·.isSome = true)
      fun q => addSize q.metric owner entry d := by
  unfold addSize sizeUses
  cases entry.size.filter (!·.isEmpty) with
  | none => exact .pure trivial (by simp)
  | some size =>
    rw [Option.toList_some, List.flatMap_singleton]
    refine .bindRecord (Metric.extractOne_accounts ..) fun read hread => ?_
    rcases read with _ | ⟨value, dependencies⟩
    · exact .reject trivial (by simp)
    · obtain rfl := hread _ rfl
      exact .dependLast (.pure trivial (by simp))

theorem compute_accounts (catalog : Catalog) (owner : String) (entry : FontEntry) :
    Accounts .font owner (uses entry) (uses entry) True (fun _ => True) (·.isSome = true)
      fun q => compute q.metric catalog (q .font) owner entry := by
  refine .bind (baseDescriptor_accounts owner entry) fun base _ => ?_
  cases base with
  | none => exact .pure trivial (by simp)
  | some base =>
    refine .bind (.weaken (addAttributes_accounts owner entry base) (by simp)) fun declared _ => ?_
    cases declared with
    | none => exact .pure trivial (by simp)
    | some declared =>
      refine .bindLast (.weaken (addSize_accounts owner entry _) (by simp)) fun d _ => ?_
      cases d with
      | none => exact .pure trivial (by simp)
      | some d => exact .weaken (realize_accounts ..) (by simp)

end FontLayers

namespace TextLayers

/-- The entry that an attribute names. -/
def nameUses (k : Kind) : Json → List Dependency
  | .string name => [⟨k, name⟩]
  | _ => []

/-- The entries that a declared attribute names. -/
def attributeUses (member : String × Json) : List Dependency :=
  if member.1 = "font" then nameUses .font member.2
  else if member.1 = "foregroundColor" ∨ member.1 = "backgroundColor" then nameUses .color member.2
  else if member.1 = "tracking" then Metric.jsonUses member.2
  else []

/-- The set that an entry is based on. -/
def baseUses (entry : TextAttributesEntry) : List Dependency :=
  Dependency.ofName? .textAttributes (entry.basedOn.filter (!·.isEmpty))

/-- The entries that the declared attributes of an entry name. -/
def declaredUses (entry : TextAttributesEntry) : List Dependency :=
  match declared? entry with
  | .ok declared => declared.flatMap attributeUses
  | .error _ => []

/-- The entries that an entry of text attributes names. -/
def uses (entry : TextAttributesEntry) : List Dependency := baseUses entry ++ declaredUses entry

theorem named_accounts (b : Asset) (owner key : String) (value : Json) :
    Accounts .textAttributes owner (nameUses b.kind value) (nameUses b.kind value) True (fun _ => True)
      (·.isSome = true) fun q => named b (q b) owner key value := by
  cases value with
  | string name => exact .dependLast .fetch
  | _ => exact .reject trivial (by simp)

theorem readAttribute_accounts (owner : String) (draft : Draft) (key : String) (value : Json) :
    Accounts .textAttributes owner (attributeUses (key, value)) (attributeUses (key, value)) (draft.errors = 0)
      (fun _ => True) (·.errors = 0) fun q => readAttribute (.of q) owner draft key value := by
  unfold readAttribute attributeUses
  dsimp only
  split
  · refine .bindLast (.keep _ (named_accounts .font owner key value)) fun font _ => ?_
    cases font with
    | none => exact .pure trivial (by simp [Draft.spoil])
    | some font => exact .pure trivial (by simp [Draft.set])
  split
  · refine .bindLast (.keep _ (named_accounts .color owner key value)) fun color _ => ?_
    cases color with
    | none => exact .pure trivial (by simp [Draft.spoil])
    | some color => exact .pure trivial (by simp [Draft.set])
  split
  · refine .bindRecord (.keep _ (Metric.extractOneJson_accounts ..)) fun read hread => ?_
    rcases read with _ | ⟨tracking, dependencies⟩
    · exact .warn (.pure trivial (by simp [Draft.spoil]))
    · obtain rfl := hread _ rfl
      exact .dependLast (.pure trivial (by simp))
  split
  · exact .warn (.pure trivial (by simp [Draft.spoil]))
  · exact .warn (.pure trivial (by simp [Draft.spoil]))

theorem readAttributes_accounts (owner : String) (declared : List (String × Json)) (draft : Draft) :
    Accounts .textAttributes owner (declared.flatMap attributeUses) (declared.flatMap attributeUses)
      (draft.errors = 0) (fun _ => True) (·.errors = 0) fun q => readAttributes (.of q) owner declared draft := by
  induction declared generalizing draft with
  | nil => exact .pure trivial (by simp)
  | cons member rest ih =>
    exact .bind (readAttribute_accounts owner draft member.1 member.2) fun draft _ => ih draft

theorem baseDraft_accounts (owner : String) (entry : TextAttributesEntry) :
    Accounts .textAttributes owner (baseUses entry) (baseUses entry) True (fun _ => True) (·.errors = 0)
      fun q => baseDraft (q .textAttributes) owner entry := by
  unfold baseDraft baseUses
  cases entry.basedOn.filter (!·.isEmpty) with
  | none => exact .pure trivial (by simp)
  | some base =>
    rw [Dependency.ofName?_some]
    refine .dependLast (.bindLast (.fetch (b := .textAttributes)) fun base _ => ?_)
    cases base with
    | none => exact .pure trivial (by simp [Draft.spoil])
    | some base => exact .pure trivial (by simp)

theorem addKern_accounts (draft : Draft) :
    Accounts a owner [] [] (draft.errors = 0) (fun _ => True) (·.errors = 0) fun _ => addKern draft := by
  unfold addKern
  split
  · split
    · exact .pure trivial (by simp [Draft.set])
    · exact .warn (.pure trivial (by simp [Draft.spoil]))
  · exact .pure trivial (by simp)

theorem compute_accounts (owner : String) (entry : TextAttributesEntry) :
    Accounts .textAttributes owner (uses entry) (uses entry) True (fun _ => True) (·.isSome = true)
      fun q => compute (.of q) (q .textAttributes) owner entry := by
  refine .bind (baseDraft_accounts owner entry) fun base _ => ?_
  unfold declaredUses
  cases declared? entry with
  | error value => exact .reject trivial (by simp)
  | ok declared =>
    refine .bindLast (readAttributes_accounts owner declared base) fun read _ => ?_
    refine .bindLast (addKern_accounts read) fun draft _ => ?_
    split
    · next h => exact .pure trivial (by simp [h])
    · exact .reject trivial (by simp)

end TextLayers

namespace ImageLayers

/-- The metrics that an expression names which may be left out. -/
def lengthUses (expression : Option String) : List Dependency := expression.toList.flatMap Metric.uses

/-- The entries that a background names. -/
def backgroundUses (b : Background) : List Dependency :=
  Dependency.ofName? .color b.fillColor ++ (Dependency.ofName? .color b.strokeColor ++
    [b.lineWidth, b.cornerRadius, b.minimumWidth, b.minimumHeight].flatMap lengthUses)

/-- The entries that the source of an image names. -/
def sourceUses : ImageSource → List Dependency
  | .basedOn name => [⟨.image, name⟩]
  | .file _ => []
  | .background b => backgroundUses b

/-- The metrics that the insets of an image name. -/
def insetUses (entry : ImageEntry) : List Dependency := entry.alignmentInsets.toList.flatMap Metric.insetUses

/-- The entries that an image entry asks about. -/
def asks (entry : ImageEntry) : List Dependency := sourceUses entry.source ++ insetUses entry

/-- The placement of an image. -/
def placementUses (entry : ImageEntry) : List Dependency := Dependency.ofName? .placement entry.placement

variable {hasPlacement : String → Bool}

theorem ofFile_accounts (surroundings : Surroundings) (path : String) :
    Accounts a owner [] [] True (fun _ => True) (·.isSome = true) fun _ => ofFile surroundings path := by
  unfold ofFile
  split
  · exact .throw
  · simp only
    split
    · exact .throw
    split
    · exact .reject trivial (by simp)
    split
    · exact .reject trivial (by simp)
    split
    · exact .pure trivial (by simp)
    · exact .reject trivial (by simp)
    · exact .reject trivial (by simp)
    · exact .throw
    · exact .throw

theorem backgroundColor_accounts (owner key : String) (name : Option String) :
    Accounts .image owner (Dependency.ofName? .color name) (Dependency.ofName? .color name) True (fun _ => True)
      (·.isSome = true) fun q => backgroundColor (.of q hasPlacement) owner key name := by
  cases name with
  | none => exact .pure trivial (by simp)
  | some name =>
    rw [Dependency.ofName?_some]
    refine .bindRecord (.fetch (b := .color)) fun color _ => ?_
    cases color with
    | none => exact .pure trivial (by simp)
    | some color => exact .dependLast (.pure trivial (by simp))

theorem backgroundLength_accounts (owner key : String) (expression : Option String) :
    Accounts .image owner (lengthUses expression) (lengthUses expression) True (fun _ => True) (·.isSome = true)
      fun q => backgroundLength (.of q hasPlacement) owner key expression := by
  cases expression with
  | none => exact .pure trivial (by simp [lengthUses])
  | some expression =>
    have huses : lengthUses (some expression) = Metric.uses expression := by simp [lengthUses]
    rw [huses]
    refine .bindRecord (Metric.extractOne_accounts ..) fun read hread => ?_
    rcases read with _ | ⟨value, dependencies⟩
    · exact .pure trivial (by simp)
    · obtain rfl := hread _ rfl
      exact .dependLast (.pure trivial (by simp))

theorem backgroundLengths_accounts (owner : String) (expressions : List (String × Option String)) :
    Accounts .image owner ((expressions.map Prod.snd).flatMap lengthUses)
      ((expressions.map Prod.snd).flatMap lengthUses) True (fun _ => True) (·.isSome = true)
      fun q => backgroundLengths (.of q hasPlacement) owner expressions := by
  induction expressions with
  | nil => exact .pure trivial (by simp)
  | cons expression rest ih =>
    refine .bind (backgroundLength_accounts owner expression.1 expression.2) fun value _ => ?_
    cases value with
    | none => exact .pure trivial (by simp)
    | some value =>
      exact .bindLast (.weaken ih (by simp)) fun others _ => .pure trivial (by simp)

theorem ofBackground_accounts (owner : String) (b : Background) :
    Accounts .image owner (backgroundUses b) (backgroundUses b) True (fun _ => True) (·.isSome = true)
      fun q => ofBackground (.of q hasPlacement) owner b := by
  refine .bind (backgroundColor_accounts owner "fillColor" b.fillColor) fun fill _ => ?_
  cases fill with
  | none => exact .pure trivial (by simp)
  | some fill =>
    refine .bind (.weaken (backgroundColor_accounts owner "strokeColor" b.strokeColor) (by simp)) fun stroke _ => ?_
    cases stroke with
    | none => exact .pure trivial (by simp)
    | some stroke =>
      refine .bindLast (.weaken (backgroundLengths_accounts owner
        [("lineWidth", b.lineWidth), ("cornerRadius", b.cornerRadius), ("minimumWidth", b.minimumWidth),
          ("minimumHeight", b.minimumHeight)]) (by simp)) fun lengths _ => ?_
      split
      · exact .lift fun image => .pure trivial (by simp)
      · exact .pure trivial (by simp)

theorem base_accounts (owner : String) (surroundings : Surroundings) (entry : ImageEntry) :
    Accounts .image owner (sourceUses entry.source) (sourceUses entry.source) True (fun _ => True)
      (·.isSome = true) fun q => base (.of q hasPlacement) surroundings (q .image) owner entry := by
  unfold base
  cases entry.source with
  | basedOn name => exact .dependLast (.fetch (b := .image))
  | file path => exact ofFile_accounts ..
  | background b => exact ofBackground_accounts owner b

theorem addInsets_accounts (owner : String) (entry : ImageEntry) (image : Image) :
    Accounts .image owner (insetUses entry) (insetUses entry) True (fun _ => True) (·.isSome = true)
      fun q => addInsets (.of q hasPlacement) owner entry image := by
  unfold addInsets insetUses
  cases entry.alignmentInsets with
  | none => exact .pure trivial (by simp)
  | some raw =>
    rw [Option.toList_some, List.flatMap_singleton]
    refine .bindRecord (Metric.extractInsets_accounts ..) fun read hread => ?_
    cases read with
    | none => exact .pure trivial (by simp)
    | some read =>
      simp only [hread read rfl]
      exact .dependLast (.pure trivial (by simp))

/-- The placement of an image is recorded if there is one of that name. -/
theorem addPlacement_accounts (owner : String) (entry : ImageEntry) (image : Image) :
    Accounts .image owner [] (placementUses entry) True
      (fun x => x.isSome = true → ∀ name ∈ entry.placement, hasPlacement name = true) (·.isSome = true)
      fun q => addPlacement (.of q hasPlacement) owner entry image := by
  unfold addPlacement placementUses
  cases entry.placement with
  | none => exact .pure (by simp) (by simp [Dependency.ofName?])
  | some name =>
    by_cases h : hasPlacement name = true
    · simp only [References.of, h, if_true]
      exact .dependLast (.pure (by simp [h]) (by simp))
    · simp only [References.of, h]
      exact .reject (by simp) (by simp)

theorem compute_accounts (owner : String) (surroundings : Surroundings) (entry : ImageEntry) :
    Accounts .image owner (asks entry) (asks entry ++ placementUses entry) True
      (fun x => x.isSome = true → ∀ name ∈ entry.placement, hasPlacement name = true) (·.isSome = true)
      fun q => compute (.of q hasPlacement) surroundings (q .image) owner entry := by
  rw [asks, List.append_assoc]
  refine .bind (base_accounts owner surroundings entry) fun image _ => ?_
  cases image with
  | none => exact .pure (by simp) (by simp)
  | some image =>
    rw [← List.append_nil (insetUses entry), List.append_assoc, List.nil_append]
    refine .bind (.weaken (addInsets_accounts owner entry image) (by simp)) fun image _ => ?_
    cases image with
    | none => exact .pure (by simp) (by simp)
    | some image => exact .weaken (addPlacement_accounts owner entry _) (by simp)

end ImageLayers

namespace ButtonLayers

/-- The entries that the elements of a state name. -/
def elementUses (names : ElementNames) : List Dependency :=
  Dependency.ofName? .textAttributes names.titleAttributes ++
    (Dependency.ofName? .image names.titleImage ++ Dependency.ofName? .image names.backgroundImage)

/-- The entries that declared states name. -/
def stateUses (declared : List (ButtonState × Option ElementNames)) : List Dependency :=
  declared.flatMap fun state => state.2.toList.flatMap elementUses

/-- The entries that a button style names. -/
def uses (entry : ButtonStyleEntry) : List Dependency :=
  stateUses [(.normal, entry.normalStyle), (.highlighted, entry.highlightedStyle),
      (.disabled, entry.disabledStyle), (.selected, entry.selectedStyle)] ++
    (entry.contentInsets.toList.flatMap Metric.insetUses ++ Dependency.ofName? .color entry.tintColor)

theorem element_accounts (b : Asset) (owner key : String) (name : Option String) :
    Accounts .buttonStyle owner (Dependency.ofName? b.kind name) (Dependency.ofName? b.kind name) True
      (fun _ => True) (·.2 = 0) fun q => element b (q b) owner key name := by
  cases name with
  | none => exact .pure trivial (by simp)
  | some name =>
    rw [Dependency.ofName?_some]
    refine .bindRecord .fetch fun value _ => ?_
    cases value with
    | none => exact .pure trivial (by simp)
    | some value => exact .dependLast (.pure trivial (by simp))

theorem stateElements_accounts (owner : String) (names : ElementNames) :
    Accounts .buttonStyle owner (elementUses names) (elementUses names) True (fun _ => True) (·.2 = 0)
      fun q => stateElements (.of q) owner names := by
  refine .bind (element_accounts .textAttributes owner ..) fun titleAttributes _ => ?_
  refine .bind (.keep _ (element_accounts .image owner ..)) fun titleImage _ => ?_
  refine .bindLast (.keep _ (element_accounts .image owner ..)) fun backgroundImage _ => ?_
  dsimp only
  split
  · exact .pure trivial (by grind)
  · exact .pure trivial (by simp_all)

theorem states_accounts (owner : String) (declared : List (ButtonState × Option ElementNames)) :
    Accounts .buttonStyle owner (stateUses declared) (stateUses declared) True (fun _ => True) (·.2 = 0)
      fun q => states (.of q) owner declared := by
  induction declared with
  | nil => exact .pure trivial (by simp [stateUses])
  | cons state rest ih =>
    rcases state with ⟨state, _ | names⟩
    · exact ih
    · have huses : stateUses ((state, some names) :: rest) = elementUses names ++ stateUses rest := by
        simp [stateUses]
      rw [huses]
      refine .bind (stateElements_accounts owner names) fun elements _ => ?_
      exact .bindLast (.keep _ ih) fun others _ => .pure trivial (by grind)

theorem contentInsets_accounts (owner : String) (raw : Option String) :
    Accounts .buttonStyle owner (raw.toList.flatMap Metric.insetUses) (raw.toList.flatMap Metric.insetUses) True
      (fun _ => True) (·.2 = 0) fun q => contentInsets (.of q) owner raw := by
  cases raw with
  | none => exact .pure trivial (by simp)
  | some raw =>
    rw [Option.toList_some, List.flatMap_singleton]
    refine .bindRecord (Metric.extractInsets_accounts ..) fun read hread => ?_
    cases read with
    | none => exact .pure trivial (by simp)
    | some read =>
      simp only [hread read rfl]
      exact .dependLast (.pure trivial (by simp))

theorem compute_accounts (owner : String) (entry : ButtonStyleEntry) :
    Accounts .buttonStyle owner (uses entry) (uses entry) True (fun _ => True) (·.isSome = true)
      fun q => compute (.of q) owner entry := by
  refine .bind (states_accounts owner _) fun states _ => ?_
  refine .bind (.keep _ (contentInsets_accounts owner _)) fun insets _ => ?_
  refine .bindLast (.keep _ (element_accounts .color owner ..)) fun tint _ => ?_
  dsimp only
  split
  · exact .pure trivial (by simp_all)
  · exact .reject trivial (by simp)

end ButtonLayers

/-! ### The entries of a document -/

namespace Document

/-- The entries that an entry asks about. -/
def asks (d : Document) : (a : Asset) → a.kind.Entry → List Dependency
  | .metric, (expression : String) => Metric.uses expression
  | .color, (raw : String) => ColorText.uses d.sections.colors.contains raw
  | .font, entry => FontLayers.uses entry
  | .textAttributes, entry => TextLayers.uses entry
  | .image, entry => ImageLayers.asks entry
  | .buttonStyle, entry => ButtonLayers.uses entry

/-- The placement that an entry names. -/
def placementUses : (a : Asset) → a.kind.Entry → List Dependency
  | .image, entry => ImageLayers.placementUses entry
  | _, _ => []

/-- The entries that an entry uses. -/
def uses (d : Document) (a : Asset) (entry : a.kind.Entry) : List Dependency := d.asks a entry ++ placementUses a entry

theorem kind_of_mem_placementUses {entry : a.kind.Entry} {dependency : Dependency}
    (h : dependency ∈ placementUses a entry) : dependency.kind = .placement := by
  cases a with
  | image =>
    obtain ⟨name, -, rfl⟩ := List.mem_map.mp h
    rfl
  | _ => cases h

end Document

namespace Reading

variable {r : Reading} {name : String} {entry : a.kind.Entry} {o : Oracle}

theorem compute_accounts (r : Reading) (a : Asset) (name : String) (entry : a.kind.Entry) :
    Accounts a name (r.document.asks a entry) (r.document.uses a entry) True
      (fun x => x.isSome = true → ∀ placement ∈ Document.placementUses a entry,
        r.document.sections.placements.contains placement.name = true)
      (·.isSome = true) fun q => r.compute q a name entry := by
  have plain {asks : List Dependency} {f : Resolvers → Resolve (Option a.Value)}
      (h : Accounts a name asks asks True (fun _ => True) (·.isSome = true) f) :
      Accounts a name asks (asks ++ []) True (fun x => x.isSome = true → ∀ placement ∈ ([] : List Dependency),
        r.document.sections.placements.contains placement.name = true) (·.isSome = true) f := by
    rw [List.append_nil]
    exact .imp h (by simp)
  cases a with
  | metric => exact plain (Metric.compute_accounts name entry)
  | color => exact plain (ColorText.compute_accounts _ name entry)
  | font => exact plain (FontLayers.compute_accounts _ name entry)
  | textAttributes => exact plain (TextLayers.compute_accounts name entry)
  | image =>
    refine .imp (ImageLayers.compute_accounts name r.surroundings entry) fun x hx hsome => ?_
    simpa [Document.placementUses, ImageLayers.placementUses, Dependency.ofName?] using hx hsome
  | buttonStyle => exact plain (ButtonLayers.compute_accounts name entry)

/-- Whatever it is told, the inquiry of an entry records nothing beside what the entry uses. -/
theorem used_subset_uses (r : Reading) (a : Asset) (name : String) (entry : a.kind.Entry) (o : Oracle) :
    ((r.plan a name entry).examine o).used ⊆ r.document.uses a entry := (r.compute_accounts a name entry).of_plan o |>.1

/-- An inquiry with a value has asked about everything that its entry asks about, and recorded everything that it
uses, and the placement is there. -/
theorem account_of_result {value : a.Value} (h : ((r.plan a name entry).examine o).result = .ok (some value)) :
    ((r.plan a name entry).examine o).asked.map .on = r.document.asks a entry ∧
      ((r.plan a name entry).examine o).used = r.document.uses a entry ∧
      ∀ placement ∈ Document.placementUses a entry,
        r.document.sections.placements.contains placement.name = true := by
  obtain ⟨-, houtcome⟩ := (r.compute_accounts a name entry).of_plan o
  obtain ⟨hplacements, hgood⟩ := houtcome _ h
  obtain ⟨-, hasked, hused⟩ := hgood rfl
  exact ⟨hasked, hused, hplacements rfl⟩

/-- What an inquiry with a value has asked about is what its entry uses, placements apart. -/
theorem mem_asked_iff {value : a.Value} {question : Asset × String}
    (hresult : ((r.plan a name entry).examine o).result = .ok (some value)) :
    question ∈ ((r.plan a name entry).examine o).asked ↔ .on question ∈ r.document.uses a entry := by
  obtain ⟨hasks, -, -⟩ := account_of_result hresult
  constructor
  · intro hasked
    have hask : .on question ∈ r.document.asks a entry := hasks ▸ List.mem_map_of_mem hasked
    exact List.mem_append_left _ hask
  · intro huses
    rcases List.mem_append.mp huses with hask | hplacement
    · rw [← hasks] at hask
      obtain ⟨asked, hasked, hsame⟩ := List.mem_map.mp hask
      exact Dependency.on_injective hsame ▸ hasked
    · have hkind : question.1.kind = .placement := Document.kind_of_mem_placementUses hplacement
      cases hasset : question.1 <;> rw [hasset] at hkind <;> cases hkind

end Reading

end DesignTokens
