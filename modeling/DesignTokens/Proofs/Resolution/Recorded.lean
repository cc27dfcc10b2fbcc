import DesignTokens.Proofs.Resolution.Ledger
import DesignTokens.Proofs.Resolution.Tally

/-!
# What is recorded of a failure

An entry that comes to nothing has asked about other entries as well, and its dependencies should tell which. They do
for what it refers to by name, but not for all that it takes from others: the metrics of an expression that cannot be
read are left out, and so are the elements of button styles and the colors of backgrounds that are not valid.

* `Document.items` — what an entry takes from others, item by item.
* `Reading.plan_ledger` — every computation keeps a ledger of these items, whatever it comes to.
* `Reading.asked_recorded_or_dropped` — what a computation asks about is recorded, or it is one of the things that a
  failure drops.
* `Reading.not_always_recorded` — a button style whose tint is not valid.
-/

namespace DesignTokens

variable {a : Asset} {owner : String}

namespace Metric

/-- The names of the metrics in an expression. -/
def expressionNames (expression : String) : List String := names (words (Text.withoutSpaces expression))

/-- The names of the metrics in the expressions of insets. -/
def insetNames (raw : String) : List String := (insetParts raw).flatMap expressionNames

/-- The names of the metrics in a number or an expression. -/
def jsonNames : Json → List String
  | .string expression => expressionNames expression
  | _ => []

section Asks

variable {P : Asset → String → Prop}

theorem extractOne_asks (expecting expression : String) (h : ∀ name ∈ expressionNames expression, P .metric name) :
    Asks P fun q => extractOne q.metric expecting expression := by
  refine .bind (scan_asks _ _ h ..) fun read => ?_
  rcases read with _ | ⟨_ | ⟨value, values⟩, dependencies⟩
  · exact .pure
  · exact .pure
  · exact .pure

theorem extractEach_asks (expecting : String) (expressions : List String)
    (h : ∀ name ∈ expressions.flatMap expressionNames, P .metric name) :
    Asks P fun q => extractEach q.metric expecting expressions := by
  induction expressions with
  | nil => exact .pure
  | cons expression rest ih =>
    rw [List.flatMap_cons] at h
    refine .bind (extractOne_asks _ _ fun name hname => h name (List.mem_append_left _ hname)) fun first => ?_
    rcases first with _ | ⟨value, dependencies⟩
    · exact .pure
    refine .bind (ih fun name hname => h name (List.mem_append_right _ hname)) fun others => ?_
    cases others with
    | none => exact .pure
    | some others => exact .pure

theorem extractInsets_asks (expecting raw : String) (h : ∀ name ∈ insetNames raw, P .metric name) :
    Asks P fun q => extractInsets q.metric expecting raw := by
  refine .bind (extractEach_asks _ _ h) fun read => ?_
  cases read with
  | none => exact .reject
  | some read =>
    dsimp only
    split
    · exact .pure
    · exact .reject

end Asks

theorem map_flatMap_names (expressions : List String) :
    (expressions.flatMap expressionNames).map (Dependency.mk .metric) = expressions.flatMap uses :=
  List.map_flatMap

theorem extractOne_reads (expecting expression : String) :
    ReadsMetrics a owner (expressionNames expression) Prod.snd fun q => extractOne q.metric expecting expression :=
  .of_account (extractOne_accounts ..) (extractOne_asks _ _ fun _ hname => ⟨rfl, hname⟩)

theorem extractEach_reads (expecting : String) (expressions : List String) :
    ReadsMetrics a owner (expressions.flatMap expressionNames) Extraction.dependencies
      fun q => extractEach q.metric expecting expressions := by
  refine .of_account ?_ (extractEach_asks _ _ fun _ hname => ⟨rfl, hname⟩)
  rw [map_flatMap_names]
  exact extractEach_accounts ..

theorem extractInsets_reads (expecting raw : String) :
    ReadsMetrics a owner (insetNames raw) Extraction.dependencies fun q => extractInsets q.metric expecting raw := by
  refine .of_account ?_ (extractInsets_asks _ _ fun _ hname => ⟨rfl, hname⟩)
  rw [insetNames, map_flatMap_names]
  exact extractInsets_accounts ..

theorem extractOneJson_reads (expecting : String) (value : Json) :
    ReadsMetrics a owner (jsonNames value) Prod.snd fun q => extractOneJson q.metric expecting value := by
  cases value with
  | string expression => exact extractOne_reads ..
  | _ =>
    refine .of_account (.pure (fun read hread => ?_) fun _ => ⟨trivial, rfl, rfl⟩) .pure
    obtain ⟨number, -, rfl⟩ := Option.map_eq_some_iff.mp hread
    rfl

theorem compute_books (name expression : String) :
    Books .metric name [] [] [.metrics (expressionNames expression)] fun q => compute q.metric name expression := by
  unfold compute
  split
  · exact .pure
  refine .read (extractOne_reads ..) .pure fun read => ?_
  exact .dependOn .pure

end Metric

namespace ColorText

/-- What a color text takes from other entries. -/
def items (isEntry : String → Bool) (raw : String) : List Item :=
  match Metric.words (Text.withoutSpaces raw) with
  | [] => []
  | tag :: parts =>
    match ColorFormat.ofWord? tag with
    | none | some .web => []
    | some .named => if isEntry (parts.headD "") then [.reference .color (parts.headD "")] else []
    | some _ => [.metrics (parts.flatMap Metric.expressionNames)]

theorem webBytes_books (raw : String) (digits : List Char) (read : List Nat) :
    Books a owner [] [] [] fun _ => webBytes raw digits read := by
  fun_induction webBytes raw digits read with
  | case1 => assumption
  | case2 => exact .reject
  | case3 => exact .reject
  | case4 => exact .reject
  | case5 => exact .pure
  | case6 => exact .pure
  | case7 => exact .reject

theorem normalise_books (format : ColorFormat) (raw : String) (values : List (Float × String)) (c : Components) :
    Books a owner [] [] [] fun _ => normalise format raw values c := by
  fun_induction normalise format raw values c with
  | case1 => exact .reject
  | case2 => exact .pure
  | case3 => assumption
  | case4 => assumption
  | case5 => exact .reject

theorem ofComponents_books (format : ColorFormat) (raw : String) (components : List Float) :
    Books a owner [] [] [] fun _ => ofComponents format raw components := by
  unfold ofComponents
  split
  · exact .pure
  · split
    · exact .lift fun color => .pure
    · exact .pure
  · exact .reject

theorem named_books (isEntry : String → Bool) (owner raw name : String) :
    Books .color owner [] [] (if isEntry name then [.reference .color name] else [])
      fun q => named q.color isEntry owner raw name := by
  unfold named
  split
  · simp only [Resolvers.color, bind_assoc, pure_bind]
    refine .reference fun x => ?_
    cases x with
    | missing => exact .reject
    | invalid => exact .reject
    | found color => exact .pure
  · split
    · exact .pure
    · exact .reject

theorem compute_books (isEntry : String → Bool) (owner raw : String) :
    Books .color owner [] [] (items isEntry raw) fun q => compute q.metric q.color isEntry owner raw := by
  unfold compute items
  cases Metric.words (Text.withoutSpaces raw) with
  | nil => exact .reject
  | cons tag parts =>
    dsimp only
    cases ColorFormat.ofWord? tag with
    | none => exact .reject
    | some format =>
      dsimp only
      by_cases hparts : parts.length ≠ format.partCount
      · simp only [if_pos hparts]
        exact .reject
      simp only [if_neg hparts]
      cases format with
      | named => exact named_books ..
      | web =>
        refine .bindLast (webBytes_books ..) fun bytes => ?_
        cases bytes with
        | none => exact .pure
        | some bytes => exact ofComponents_books ..
      | _ =>
        refine .read (Metric.extractEach_reads ..) .pure fun read => ?_
        refine .dependOn (.bindLast (normalise_books ..) fun components => ?_)
        cases components with
        | none => exact .pure
        | some components => exact ofComponents_books ..

end ColorText

namespace FontLayers

/-- What a declared font attribute takes from other entries. -/
def attributeItems (member : String × Json) : List Item :=
  if member.1 = "size" then [.metrics (Metric.jsonNames member.2)] else []

/-- What declared font attributes take from other entries. -/
def attributesItems : Option Json → List Item
  | some (.object declared) => declared.flatMap attributeItems
  | _ => []

/-- The font that an entry is based on, its attributes and its size. -/
def items (entry : FontEntry) : List Item :=
  (entry.basedOn.filter (!·.isEmpty)).toList.map (.reference .font) ++ (attributesItems entry.attributes ++
    (entry.size.filter (!·.isEmpty)).toList.map fun size => .metrics (Metric.expressionNames size))

theorem attributes_books (owner : String) (declared : List (String × Json)) (read : Mapping Json) :
    Books .font owner [] [] (declared.flatMap attributeItems) fun q => attributes q.metric owner declared read := by
  induction declared generalizing read with
  | nil => exact .pure
  | cons member rest ih =>
    obtain ⟨key, value⟩ := member
    simp only [attributes, List.flatMap_cons, attributeItems]
    by_cases hsize : key = "size"
    · subst hsize
      have hmarked : marked? "size" = none := by decide
      have hknown : descriptorKeys.contains "size" = true := by decide
      simp only [hmarked, hknown, Bool.not_true, Bool.false_eq_true, if_true, if_false]
      exact .read (Metric.extractOneJson_reads ..) .reject fun size => .dependOn (ih _)
    · simp only [hsize, if_false, List.nil_append]
      split
      · exact ih ..
      split
      · exact .reject
      split
      · exact ih ..
      · split
        · exact .reject
        · exact ih ..

theorem realize_books (catalog : Catalog) (d : FontDescriptor) : Books a owner [] [] [] fun _ => realize catalog d := by
  refine .lift fun expected => ?_
  cases expected with
  | none => exact .reject
  | some expected =>
    refine .lift fun realized => ?_
    dsimp only
    split
    · exact .reject
    · exact .lift fun size => .pure

theorem compute_books (catalog : Catalog) (owner : String) (entry : FontEntry) :
    Books .font owner [] [] (items entry) fun q => compute q.metric catalog (q .font) owner entry := by
  have hbase : Books .font owner [] [] ((entry.basedOn.filter (!·.isEmpty)).toList.map (.reference .font))
      fun q => baseDescriptor (q .font) owner entry := by
    unfold baseDescriptor
    cases entry.basedOn.filter (!·.isEmpty) with
    | none => exact .pure
    | some base => exact .fetched (b := .font) fun font => .pure
  refine .bind hbase fun base => ?_
  cases base with
  | none => exact .pure
  | some base =>
    have hattributes : Books .font owner [] [] (attributesItems entry.attributes)
        fun q => addAttributes q.metric owner entry base := by
      unfold addAttributes
      cases entry.attributes with
      | none => exact .pure
      | some value =>
        cases value with
        | object declared => exact .bindLast (attributes_books ..) fun declared => .pure
        | _ => exact .reject
    refine .bind hattributes fun declared => ?_
    cases declared with
    | none => exact .pure
    | some declared =>
      have hsize : Books .font owner [] []
          ((entry.size.filter (!·.isEmpty)).toList.map fun size => .metrics (Metric.expressionNames size))
          fun q => addSize q.metric owner entry (addNames entry declared) := by
        unfold addSize
        cases entry.size.filter (!·.isEmpty) with
        | none => exact .pure
        | some size => exact .read (Metric.extractOne_reads ..) .reject fun read => .dependOn .pure
      refine .bindLast hsize fun d => ?_
      cases d with
      | none => exact .pure
      | some d => exact realize_books ..

end FontLayers

namespace TextLayers

/-- The entry that an attribute names. -/
def nameItems (b : Asset) : Json → List Item
  | .string name => [.reference b name]
  | _ => []

/-- What a declared attribute takes from other entries. -/
def attributeItems (member : String × Json) : List Item :=
  if member.1 = "font" then nameItems .font member.2
  else if member.1 = "foregroundColor" ∨ member.1 = "backgroundColor" then nameItems .color member.2
  else if member.1 = "tracking" then [.metrics (Metric.jsonNames member.2)]
  else []

/-- What the declared attributes of an entry take from other entries. -/
def declaredItems (entry : TextAttributesEntry) : List Item :=
  match declared? entry with
  | .ok declared => declared.flatMap attributeItems
  | .error _ => []

/-- The set that an entry is based on, and its attributes. -/
def items (entry : TextAttributesEntry) : List Item :=
  (entry.basedOn.filter (!·.isEmpty)).toList.map (.reference .textAttributes) ++ declaredItems entry

theorem named_books (b : Asset) (owner key : String) (value : Json) {β : Type}
    {g : Option b.Value → Resolvers → Resolve β} (h : ∀ x, Books .textAttributes owner [] [] [] (g x)) :
    Books .textAttributes owner [] [] (nameItems b value) (fun q => do g (← named b (q b) owner key value) q) := by
  cases value with
  | string name =>
    simp only [named, bind_assoc]
    exact .fetched h
  | _ => exact .warn (h none)

theorem readAttribute_books (owner : String) (draft : Draft) (key : String) (value : Json) :
    Books .textAttributes owner [] [] (attributeItems (key, value))
      fun q => readAttribute (.of q) owner draft key value := by
  unfold readAttribute attributeItems
  dsimp only
  split
  · refine named_books .font owner key value fun font => ?_
    cases font with
    | none => exact .pure
    | some font => exact .pure
  split
  · refine named_books .color owner key value fun color => ?_
    cases color with
    | none => exact .pure
    | some color => exact .pure
  split
  · exact .read (Metric.extractOneJson_reads ..) (.warn .pure) fun read => .dependOn .pure
  split
  · exact .warn .pure
  · exact .warn .pure

theorem readAttributes_books (owner : String) (declared : List (String × Json)) (draft : Draft) :
    Books .textAttributes owner [] [] (declared.flatMap attributeItems)
      fun q => readAttributes (.of q) owner declared draft := by
  induction declared generalizing draft with
  | nil => exact .pure
  | cons member rest ih => exact .bind (readAttribute_books owner draft member.1 member.2) fun draft => ih draft

theorem addKern_books (draft : Draft) : Books a owner [] [] [] fun _ => addKern draft := by
  unfold addKern
  split
  · split
    · exact .pure
    · exact .warn .pure
  · exact .pure

theorem compute_books (owner : String) (entry : TextAttributesEntry) :
    Books .textAttributes owner [] [] (items entry) fun q => compute (.of q) (q .textAttributes) owner entry := by
  have hbase : Books .textAttributes owner [] []
      ((entry.basedOn.filter (!·.isEmpty)).toList.map (.reference .textAttributes))
      fun q => baseDraft (q .textAttributes) owner entry := by
    unfold baseDraft
    cases entry.basedOn.filter (!·.isEmpty) with
    | none => exact .pure
    | some base =>
      refine .fetched (b := .textAttributes) fun found => ?_
      cases found with
      | none => exact .pure
      | some found => exact .pure
  refine .bind hbase fun base => ?_
  unfold declaredItems
  cases declared? entry with
  | error value => exact .reject
  | ok declared =>
    refine .bindLast (readAttributes_books owner declared base) fun read => ?_
    refine .bindLast (addKern_books read) fun draft => ?_
    split
    · exact .pure
    · exact .reject

end TextLayers

namespace ImageLayers

/-- What a background takes from other entries. -/
def backgroundItems (b : Background) : List Item :=
  b.fillColor.toList.map (.element .color) ++ (b.strokeColor.toList.map (.element .color) ++
    [b.lineWidth, b.cornerRadius, b.minimumWidth, b.minimumHeight].flatMap fun length =>
      length.toList.map fun expression => .metrics (Metric.expressionNames expression))

/-- What the source of an image takes from other entries. -/
def sourceItems : ImageSource → List Item
  | .basedOn name => [.reference .image name]
  | .file _ => []
  | .background b => backgroundItems b

/-- The source of an image, its insets and its placement. -/
def items (entry : ImageEntry) : List Item :=
  sourceItems entry.source ++ (entry.alignmentInsets.toList.map (fun raw => .metrics (Metric.insetNames raw)) ++
    entry.placement.toList.map .placement)

variable {hasPlacement : String → Bool}

theorem ofFile_books (surroundings : Surroundings) (path : String) :
    Books a owner [] [] [] fun _ => ofFile surroundings path := by
  unfold ofFile
  split
  · exact .throw
  · simp only
    split
    · exact .throw
    split
    · exact .reject
    split
    · exact .reject
    split
    · exact .pure
    · exact .reject
    · exact .reject
    · exact .throw
    · exact .throw

theorem backgroundColor_books (owner key : String) (name : Option String) :
    Books .image owner [] [] (name.toList.map (.element .color))
      fun q => backgroundColor (.of q hasPlacement) owner key name := by
  cases name with
  | none => exact .pure
  | some name => exact .element (b := .color) .pure fun color => .dependOn .pure

theorem backgroundLengths_books (owner : String) (expressions : List (String × Option String)) :
    Books .image owner [] [] ((expressions.map Prod.snd).flatMap fun length =>
        length.toList.map fun expression => .metrics (Metric.expressionNames expression))
      fun q => backgroundLengths (.of q hasPlacement) owner expressions := by
  induction expressions with
  | nil => exact .pure
  | cons expression rest ih =>
    obtain ⟨key, length⟩ := expression
    have hlength : Books .image owner [] []
        (length.toList.map fun expression => .metrics (Metric.expressionNames expression))
        fun q => backgroundLength (.of q hasPlacement) owner key length := by
      cases length with
      | none => exact .pure
      | some expression => exact .read (Metric.extractOne_reads ..) .pure fun read => .dependOn .pure
    refine .bind hlength fun value => ?_
    cases value with
    | none => exact .pure
    | some value => exact .bindLast ih fun others => .pure

theorem ofBackground_books (owner : String) (b : Background) :
    Books .image owner [] [] (backgroundItems b) fun q => ofBackground (.of q hasPlacement) owner b := by
  refine .bind (backgroundColor_books owner "fillColor" b.fillColor) fun fill => ?_
  cases fill with
  | none => exact .pure
  | some fill =>
    refine .bind (backgroundColor_books owner "strokeColor" b.strokeColor) fun stroke => ?_
    cases stroke with
    | none => exact .pure
    | some stroke =>
      refine .bindLast (backgroundLengths_books owner
        [("lineWidth", b.lineWidth), ("cornerRadius", b.cornerRadius), ("minimumWidth", b.minimumWidth),
          ("minimumHeight", b.minimumHeight)]) fun lengths => ?_
      split
      · exact .lift fun image => .pure
      · exact .pure

theorem compute_books (owner : String) (surroundings : Surroundings) (entry : ImageEntry) :
    Books .image owner [] [] (items entry)
      fun q => compute (.of q hasPlacement) surroundings (q .image) owner entry := by
  have hbase : Books .image owner [] [] (sourceItems entry.source)
      fun q => base (.of q hasPlacement) surroundings (q .image) owner entry := by
    unfold base
    cases entry.source with
    | basedOn name =>
      have hfetched : Books .image owner [] [] [.reference .image name] fun q =>
          Resolve.dependOn .image owner [⟨.image, name⟩] >>= fun _ =>
            fetch .image (q .image) name "basedOn" .image >>= fun found => pure found :=
        .fetched fun found => .pure
      simp only [bind_pure] at hfetched
      exact hfetched
    | file path => exact ofFile_books ..
    | background b => exact ofBackground_books owner b
  refine .bind hbase fun image => ?_
  cases image with
  | none => exact .pure
  | some image =>
    have hinsets : Books .image owner [] []
        (entry.alignmentInsets.toList.map fun raw => .metrics (Metric.insetNames raw))
        fun q => addInsets (.of q hasPlacement) owner entry image := by
      unfold addInsets
      cases entry.alignmentInsets with
      | none => exact .pure
      | some raw => exact .read (Metric.extractInsets_reads ..) .pure fun read => .dependOn .pure
    refine .bind hinsets fun image => ?_
    cases image with
    | none => exact .pure
    | some image =>
      dsimp only
      unfold addPlacement
      cases entry.placement with
      | none => exact .pure
      | some name =>
        simp only [References.of]
        by_cases hpresent : hasPlacement name = true
        · simp only [hpresent, if_true]
          exact .placement .pure
        · simp only [hpresent]
          exact .reject

end ImageLayers

namespace ButtonLayers

/-- The entries that the elements of a state name. -/
def elementItems (names : ElementNames) : List Item :=
  names.titleAttributes.toList.map (.element .textAttributes) ++
    (names.titleImage.toList.map (.element .image) ++ names.backgroundImage.toList.map (.element .image))

/-- The entries that declared states name. -/
def stateItems (declared : List (ButtonState × Option ElementNames)) : List Item :=
  declared.flatMap fun state => state.2.toList.flatMap elementItems

/-- The elements of the states of a button, its insets and its tint. -/
def items (entry : ButtonStyleEntry) : List Item :=
  stateItems [(.normal, entry.normalStyle), (.highlighted, entry.highlightedStyle),
      (.disabled, entry.disabledStyle), (.selected, entry.selectedStyle)] ++
    (entry.contentInsets.toList.map (fun raw => .metrics (Metric.insetNames raw)) ++
      entry.tintColor.toList.map (.element .color))

theorem element_books (b : Asset) (owner key : String) (name : Option String) :
    Books .buttonStyle owner [] [] (name.toList.map (.element b)) fun q => element b (q b) owner key name := by
  cases name with
  | none => exact .pure
  | some name => exact .element .pure fun value => .dependOn .pure

theorem stateElements_books (owner : String) (names : ElementNames) :
    Books .buttonStyle owner [] [] (elementItems names) fun q => stateElements (.of q) owner names := by
  refine .bind (element_books .textAttributes owner ..) fun titleAttributes => ?_
  refine .bind (element_books .image owner ..) fun titleImage => ?_
  refine .bindLast (element_books .image owner ..) fun backgroundImage => ?_
  dsimp only
  split
  · exact .pure
  · exact .pure

theorem states_books (owner : String) (declared : List (ButtonState × Option ElementNames)) :
    Books .buttonStyle owner [] [] (stateItems declared) fun q => states (.of q) owner declared := by
  induction declared with
  | nil => exact .pure
  | cons state rest ih =>
    rcases state with ⟨state, _ | names⟩
    · exact ih
    · have hitems : stateItems ((state, some names) :: rest) = elementItems names ++ stateItems rest := by
        simp [stateItems]
      rw [hitems]
      refine .bind (stateElements_books owner names) fun elements => ?_
      exact .bindLast ih fun others => .pure

theorem compute_books (owner : String) (entry : ButtonStyleEntry) :
    Books .buttonStyle owner [] [] (items entry) fun q => compute (.of q) owner entry := by
  refine .bind (states_books owner _) fun states => ?_
  have hinsets : Books .buttonStyle owner [] []
      (entry.contentInsets.toList.map fun raw => .metrics (Metric.insetNames raw))
      fun q => contentInsets (.of q) owner entry.contentInsets := by
    cases entry.contentInsets with
    | none => exact .pure
    | some raw => exact .read (Metric.extractInsets_reads ..) .pure fun read => .dependOn .pure
  refine .bind hinsets fun insets => ?_
  refine .bindLast (element_books .color owner ..) fun tint => ?_
  dsimp only
  split
  · exact .pure
  · exact .reject

end ButtonLayers

/-- What an entry takes from other entries. -/
def Document.items (d : Document) : (a : Asset) → a.kind.Entry → List Item
  | .metric, (expression : String) => [.metrics (Metric.expressionNames expression)]
  | .color, (raw : String) => ColorText.items d.sections.colors.contains raw
  | .font, entry => FontLayers.items entry
  | .textAttributes, entry => TextLayers.items entry
  | .image, entry => ImageLayers.items entry
  | .buttonStyle, entry => ButtonLayers.items entry

namespace Reading

variable {r : Reading} {underWay : List String} {name : String} {entry : a.kind.Entry} {p p' : Progress}

theorem compute_books (r : Reading) (a : Asset) (name : String) (entry : a.kind.Entry) :
    Books a name [] [] (r.document.items a entry) fun q => r.compute q a name entry := by
  cases a with
  | metric => exact Metric.compute_books name entry
  | color => exact ColorText.compute_books _ name entry
  | font => exact FontLayers.compute_books _ name entry
  | textAttributes => exact TextLayers.compute_books name entry
  | image => exact ImageLayers.compute_books name r.surroundings entry
  | buttonStyle => exact ButtonLayers.compute_books name entry

/-- The inquiry of an entry keeps a ledger of its items, whatever it is told and whatever it comes to. -/
theorem plan_ledger (r : Reading) (a : Asset) (name : String) (entry : a.kind.Entry) (o : Oracle) :
    Ledger o (r.document.items a entry) ((r.plan a name entry).examine o).asked
      ((r.plan a name entry).examine o).used :=
  (r.compute_books a name entry).of_plan o

/-- Every request that computes an entry and returns, in whatever state and whatever else is under way, leaves the
cell of the entry loaded, with a ledger of the questions of this computation added to its dependencies: what the entry
refers to is recorded in any case, an element only if it is found, and the metrics of expressions only if all of them
can be read. So a valid entry has recorded everything it has asked about, and an invalid one everything but such
elements and metrics. -/
theorem asked_recorded_or_dropped {x : Option a.Value} (hentry : r.document.entry? a.kind name = some entry)
    (hempty : (p.cell a name).memo.isLoaded = false) (hunder : name ∉ underWay)
    (hrequest : r.request a underWay name p = .ok x p') :
    (p'.cell a name).memo.isLoaded = true ∧
      ∃ asked used,
        asked = (r.plan a name entry).questions (r.resolvers a (name :: underWay)) (p.record (.started a name)) ∧
        (p'.cell a name).dependencies = (p.cell a name).dependencies ++ used ∧
        Ledger (p'.answers r.document) (r.document.items a entry) asked used ∧
        ∀ question ∈ asked, .on question ∈ used ∨
          ((p'.cell a name).memo.isValid = false ∧
            ∃ item ∈ r.document.items a entry, item.Drops (p'.answers r.document) question) := by
  obtain ⟨result, used, hfindings, -, hcell⟩ := request_tally hentry hempty hunder hrequest
  have hledger := r.plan_ledger a name entry (p'.answers r.document)
  rw [hfindings] at hledger
  refine ⟨?_, _, used, rfl, ?_, hledger, fun question hq => ?_⟩
  · rw [hcell]
    exact Cell.isLoaded_settle ..
  · rw [hcell, Cell.settle_dependencies]
  · cases result with
    | none =>
      refine (hledger.recorded_or_dropped hq).imp_right fun hdrops => ⟨?_, hdrops⟩
      rw [hcell]
      rfl
    | some value =>
      left
      obtain ⟨hasks, hused, -⟩ := account_of_result (congrArg Findings.result hfindings)
      rw [hfindings] at hasks hused
      rw [show used = r.document.uses a entry from hused]
      exact List.mem_append_left _ (hasks ▸ List.mem_map_of_mem hq)

/-! ### A tint that is no color -/

end Reading

/-- A button style that declares a tint and nothing else. -/
def ButtonStyleEntry.tinted (name : String) : ButtonStyleEntry := ⟨none, none, none, none, none, some name, none⟩

namespace Reading

/-- A button style whose tint is a color of no known format. -/
def blankTint : Reading :=
  ofSections {
    colors := ⟨[("c", "x")], by decide⟩
    buttonStyles := ⟨[("s", .tinted "c")], by decide⟩ }

theorem blankTint_c : blankTint.document.sections.colors.find? "c" = some "x" := rfl

theorem blankTint_s : blankTint.document.entry? .buttonStyle "s" = some (.tinted "c") := rfl

theorem request_blankTint :
    ∃ x p', blankTint.request .buttonStyle [] "s" {} = .ok x p' ∧ (p'.cell .buttonStyle "s").dependencies = [] ∧
      p'.answers blankTint.document .color "c" = .invalid := by
  rw [request_nil]
  simp only [resolve?, buttonStyle, color, resolveButtonStyle]
  change ∃ x p', (some <$> memoized .buttonStyle "s" (ButtonStyleEntry.tinted "c") false
    (ButtonLayers.compute _ "s" (.tinted "c"))) {} = EStateM.Result.ok x p' ∧ _
  simp only [ButtonLayers.compute, ButtonLayers.element, ButtonStyleEntry.tinted, DesignTokens.fetch,
    resolveColor_found blankTint_c, List.not_mem_nil, ↓reduceIte]
  exact ⟨_, _, rfl, rfl, rfl⟩

/-- The style asks about its tint. -/
theorem asked_blankTint {o : Oracle} (h : ¬ (o .color "c").IsFound) :
    ((blankTint.plan .buttonStyle "s" (.tinted "c")).examine o).asked = [(.color, "c")] := by
  obtain ⟨p₁, hfetch, hbegun⟩ := Resolvers.fetch_probe h "tintColor" .buttonStyle {}
  have hcompute : ∃ notice, blankTint.compute (.probe o) .buttonStyle "s" (.tinted "c") {} =
      .ok none (p₁.record (.noticed notice)) := by
    simp only [compute, ButtonLayers.compute, ButtonLayers.states, ButtonLayers.contentInsets, ButtonLayers.element,
      ButtonStyleEntry.tinted, ButtonLayers.References.of, pure_bind, bind_assoc]
    rw [Resolve.bind_of_ok hfetch]
    exact ⟨_, rfl⟩
  obtain ⟨notice, hcompute⟩ := hcompute
  rw [(examine_eq_of_compute hcompute).2]
  change p₁.begun.reverse = _
  rw [hbegun]
  rfl

theorem questions_blankTint {x : Option ButtonStyle} {p' : Progress}
    (hrequest : blankTint.request .buttonStyle [] "s" {} = .ok x p')
    (hanswer : p'.answers blankTint.document .color "c" = .invalid) :
    (blankTint.plan .buttonStyle "s" (.tinted "c")).questions (blankTint.resolvers .buttonStyle ["s"])
      (Progress.record {} (.started .buttonStyle "s")) = [(.color, "c")] := by
  obtain ⟨result, used, hfindings, -, -⟩ := request_tally blankTint_s rfl List.not_mem_nil hrequest
  have hasked := asked_blankTint (o := p'.answers blankTint.document) (by rw [hanswer]; exact Answer.not_isFound_invalid)
  exact (congrArg Findings.asked hfindings).symm.trans hasked

/-- The tint is not valid, so the style may leave it out, and it does. -/
theorem asked_recorded_or_dropped_tint :
    ∃ x p', blankTint.request .buttonStyle [] "s" {} = .ok x p' ∧ (p'.cell .buttonStyle "s").dependencies = [] ∧
      (p'.cell .buttonStyle "s").memo.isValid = false ∧
      ∃ item ∈ blankTint.document.items .buttonStyle (.tinted "c"),
        item.Drops (p'.answers blankTint.document) (.color, "c") := by
  obtain ⟨x, p', hrequest, hnone, hanswer⟩ := request_blankTint
  obtain ⟨-, asked, used, hasked, hcell, -, hall⟩ :=
    asked_recorded_or_dropped blankTint_s rfl List.not_mem_nil hrequest
  obtain rfl : used = [] := by rw [hnone] at hcell; exact (List.append_eq_nil_iff.mp hcell.symm).2
  rw [questions_blankTint hrequest hanswer] at hasked
  have hquestion : (Asset.color, "c") ∈ asked := hasked ▸ List.mem_singleton_self _
  rcases hall _ hquestion with hrecorded | ⟨hinvalid, hdrops⟩
  · cases hrecorded
  · exact ⟨x, p', hrequest, hnone, hinvalid, hdrops⟩

/-- It is not so that a computation that returns has recorded all existing entries that it has asked about. -/
theorem not_always_recorded :
    ¬ ∀ (r : Reading) (a : Asset) (underWay : List String) (name : String) (entry : a.kind.Entry) (p p' : Progress)
      (x : Option a.Value), r.document.entry? a.kind name = some entry → (p.cell a name).memo.isLoaded = false →
      name ∉ underWay → r.request a underWay name p = .ok x p' →
        ∀ question ∈ (r.plan a name entry).questions (r.resolvers a (name :: underWay)) (p.record (.started a name)),
          (r.document.entry? question.1.kind question.2).isSome = true →
            .on question ∈ (p'.cell a name).dependencies := by
  intro h
  obtain ⟨x, p', hrequest, hnone, hanswer⟩ := request_blankTint
  have hasked := questions_blankTint hrequest hanswer
  have hrecorded := h blankTint .buttonStyle [] "s" (.tinted "c") {} p' x blankTint_s rfl List.not_mem_nil hrequest
    (.color, "c") (Eq.mpr (congrArg ((Asset.color, "c") ∈ ·) hasked) (List.mem_singleton_self _)) rfl
  rw [hnone] at hrecorded
  cases hrecorded

end Reading

end DesignTokens
