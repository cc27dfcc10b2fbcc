import DesignTokens.Proofs.Resolution.Inquiry

/-!
# The computations of entries as inquiries

The computation of every kind of entry is an inquiry, and so are the parts it is made of. They all have one
shape: whatever held before, a part that comes to something has met with valid entries only. Parts that count
errors instead of giving up come to a draft without errors.

The assets that may be asked about and the cells that may be written to are parameters here; which ones a kind
of entry has is said where its parts are put together.

* `Metric.compute_inquires`, `ColorText.compute_inquires`, `FontLayers.compute_inquires`,
  `TextLayers.compute_inquires`, `ImageLayers.compute_inquires`, `ButtonLayers.compute_inquires`
-/

namespace DesignTokens

variable {asks : Asset → Prop} {writes : Asset → String → Prop} {before : Prop}

namespace Metric

theorem namedValue_inquires (ha : asks .metric) (expecting name whole : String) :
    Inquires asks writes before (fun x => before ∧ x.isSome = true)
      fun q => namedValue q.metric expecting name whole := by
  refine .metric ha fun x => ?_
  cases x with
  | missing => exact .reject (by simp)
  | invalid => exact .reject (by simp)
  | found value => exact .pure (by simp)

theorem conclude_inquires (expecting whole : String) (requested : Option Int) (rest : List String)
    (read : Extraction) :
    Inquires asks writes before (fun x => before ∧ x.isSome = true)
      fun _ => conclude expecting whole requested rest read := by
  unfold conclude
  split
  · exact .reject (by simp)
  split
  · exact .reject (by simp)
  split
  · exact .reject (by simp)
  · exact .pure (by simp)

theorem scan_inquires (ha : asks .metric) (expecting : String) (words : List String) (whole : String)
    (requested : Option Int) (read : Extraction) :
    Inquires asks writes before (fun x => before ∧ x.isSome = true)
      fun q => scan q.metric expecting words whole requested read := by
  induction words generalizing whole requested read with
  | nil => exact conclude_inquires ..
  | cons word rest ih =>
    simp only [scan]
    split
    · exact conclude_inquires ..
    split
    · split
      · exact .reject (by simp)
      · refine .bind (ih ..) fun args => ?_
        cases args with
        | none => exact .reject (by simp)
        | some args =>
          dsimp only
          split
          · exact .reject (by simp)
          · exact .weaken (conclude_inquires ..) (by simp)
    · split
      · exact ih ..
      split
      · split
        · exact .reject (by simp)
        · refine .bind (namedValue_inquires ha ..) fun value => ?_
          cases value with
          | none => exact .pure (by simp)
          | some value => exact .weaken (conclude_inquires ..) (by simp)
      · refine .lift fun literal => ?_
        cases literal with
        | some value => exact ih ..
        | none =>
          refine .bind (namedValue_inquires ha ..) fun value => ?_
          cases value with
          | none => exact .pure (by simp)
          | some value => exact .weaken (ih ..) (by simp)

theorem extract_inquires (ha : asks .metric) (expecting expression : String) (requested : Option Int) :
    Inquires asks writes before (fun x => before ∧ x.isSome = true)
      fun q => extract q.metric expecting expression requested :=
  scan_inquires ha ..

theorem extractOne_inquires (ha : asks .metric) (expecting expression : String) :
    Inquires asks writes before (fun x => before ∧ x.isSome = true)
      fun q => extractOne q.metric expecting expression := by
  refine .bind (extract_inquires ha ..) fun read => ?_
  rcases read with _ | ⟨_ | ⟨value, values⟩, dependencies⟩
  · exact .pure (by simp)
  · exact .pure (by simp)
  · exact .pure (by simp)

/-- One value after the other is asked for. -/
theorem each_inquires {one : Resolvers → Resolve (Option (Float × List Dependency))}
    {rest : Resolvers → Resolve (Option Extraction)}
    (hone : Inquires asks writes before (fun x => before ∧ x.isSome = true) one)
    (hrest : Inquires asks writes before (fun x => before ∧ x.isSome = true) rest) :
    Inquires asks writes before (fun x => before ∧ x.isSome = true) (fun q => do
      match ← one q with
      | none => return none
      | some (value, dependencies) =>
        match ← rest q with
        | none => return none
        | some others => return some (Extraction.single value dependencies ++ others)) := by
  refine .bind hone fun first => ?_
  rcases first with _ | ⟨value, dependencies⟩
  · exact .pure (by simp)
  refine .bind (.weaken hrest (by simp)) fun others => ?_
  cases others with
  | none => exact .pure (by simp)
  | some others => exact .pure (by simp)

theorem extractEach_inquires (ha : asks .metric) (expecting : String) (expressions : List String) :
    Inquires asks writes before (fun x => before ∧ x.isSome = true)
      fun q => extractEach q.metric expecting expressions := by
  induction expressions with
  | nil => exact .pure (by simp)
  | cons expression rest ih => exact each_inquires (extractOne_inquires ha ..) ih

theorem extractInsets_inquires (ha : asks .metric) (expecting raw : String) :
    Inquires asks writes before (fun x => before ∧ x.isSome = true)
      fun q => extractInsets q.metric expecting raw := by
  refine .bind (extractEach_inquires ha ..) fun read => ?_
  cases read with
  | none => exact .reject (by simp)
  | some read =>
    dsimp only
    split
    · exact .pure (by simp)
    · exact .reject (by simp)

theorem extractOneJson_inquires (ha : asks .metric) (expecting : String) (value : Json) :
    Inquires asks writes before (fun x => before ∧ x.isSome = true)
      fun q => extractOneJson q.metric expecting value := by
  unfold extractOneJson
  split
  · exact extractOne_inquires ha ..
  · exact .pure And.left

theorem extractItems_inquires (ha : asks .metric) (expecting : String) (items : List Json) :
    Inquires asks writes before (fun x => before ∧ x.isSome = true)
      fun q => extractItems q.metric expecting items := by
  induction items with
  | nil => exact .pure (by simp)
  | cons item rest ih => exact each_inquires (extractOneJson_inquires ha ..) ih

/-- What has been read is kept if it is as much as requested. -/
theorem keep_inquires (requested : Option Int) (read : Option Extraction) :
    Inquires asks writes (before ∧ read.isSome = true) (fun x => before ∧ x.isSome = true) (fun _ => do
      match read with
      | none => return none
      | some read =>
        if requested.any fun count => (read.values.length : Int) ≠ count then return none
        else return some read) := by
  cases read with
  | none => exact .pure (by simp)
  | some read =>
    dsimp only
    split
    · exact .pure (by simp)
    · exact .pure (by simp)

theorem extractJson_inquires (ha : asks .metric) (expecting : String) (value : Json) (requested : Option Int) :
    Inquires asks writes before (fun x => before ∧ x.isSome = true)
      fun q => extractJson q.metric expecting value requested := by
  unfold extractJson
  split
  · exact .bind (extractItems_inquires ha ..) (keep_inquires requested)
  · exact .bind (extract_inquires ha ..) (keep_inquires requested)
  · exact .bind (.pure And.left) (keep_inquires requested)

theorem compute_inquires (ha : asks .metric) (name expression : String) (hw : writes .metric name) :
    Inquires asks writes before (fun x => before ∧ x.isSome = true) fun q => compute q.metric name expression := by
  unfold compute
  split
  · exact .pure (by simp)
  refine .bind (extractOne_inquires ha ..) fun read => ?_
  rcases read with _ | ⟨value, dependencies⟩
  · exact .pure (by simp)
  · exact .dependOn hw (.pure (by simp))

end Metric

namespace ColorText

theorem webBytes_inquires (raw : String) (digits : List Char) (read : List Nat) :
    Inquires asks writes before (fun x => before ∧ x.isSome = true) fun _ => webBytes raw digits read := by
  fun_induction webBytes raw digits read with
  | case1 => assumption
  | case2 => exact .reject (by simp)
  | case3 => exact .reject (by simp)
  | case4 => exact .reject (by simp)
  | case5 => exact .pure (by simp)
  | case6 => exact .pure (by simp)
  | case7 => exact .reject (by simp)

theorem normalise_inquires (format : ColorFormat) (raw : String) (values : List (Float × String))
    (c : Components) :
    Inquires asks writes before (fun x => before ∧ x.isSome = true) fun _ => normalise format raw values c := by
  fun_induction normalise format raw values c with
  | case1 => exact .reject (by simp)
  | case2 => exact .pure (by simp)
  | case3 => assumption
  | case4 => assumption
  | case5 => exact .reject (by simp)

theorem ofComponents_inquires (format : ColorFormat) (raw : String) (components : List Float) :
    Inquires asks writes before (fun x => before ∧ x.isSome = true)
      fun _ => ofComponents format raw components := by
  unfold ofComponents
  split
  · exact .pure (by simp)
  · split
    · exact .lift fun color => .pure (by simp)
    · exact .pure (by simp)
  · exact .reject (by simp)

theorem named_inquires (ha : asks .color) (isEntry : String → Bool) (owner raw name : String)
    (hw : writes .color owner) :
    Inquires asks writes before (fun x => before ∧ x.isSome = true) fun q => named q.color isEntry owner raw name := by
  unfold named
  split
  · refine .dependOn hw (.color ha fun x => ?_)
    cases x with
    | missing => exact .reject (by simp)
    | invalid => exact .reject (by simp)
    | found color => exact .pure (by simp)
  · split
    · exact .pure (by simp)
    · exact .reject (by simp)

theorem compute_inquires (hm : asks .metric) (hc : asks .color) (isEntry : String → Bool) (owner raw : String)
    (hw : writes .color owner) :
    Inquires asks writes before (fun x => before ∧ x.isSome = true)
      fun q => compute q.metric q.color isEntry owner raw := by
  unfold compute
  split
  · exact .reject (by simp)
  split
  · exact .reject (by simp)
  split
  · exact .reject (by simp)
  split
  · exact named_inquires hc _ _ _ _ hw
  · refine .bind (webBytes_inquires ..) fun bytes => ?_
    cases bytes with
    | none => exact .pure (by simp)
    | some bytes => exact .weaken (ofComponents_inquires ..) (by simp)
  · refine .bind (Metric.extractEach_inquires hm ..) fun read => ?_
    cases read with
    | none => exact .pure (by simp)
    | some read =>
      refine .dependOn hw (.bind (normalise_inquires ..) fun components => ?_)
      cases components with
      | none => exact .pure (by simp)
      | some components => exact .weaken (ofComponents_inquires ..) (by simp)

end ColorText

namespace FontLayers

theorem attributes_inquires (hm : asks .metric) (owner : String) (hw : writes .font owner)
    (declared : List (String × Json)) (read : Mapping Json) :
    Inquires asks writes before (fun x => before ∧ x.isSome = true)
      fun q => attributes q.metric owner declared read := by
  induction declared generalizing read with
  | nil => exact .pure (by simp)
  | cons member rest ih =>
    obtain ⟨key, value⟩ := member
    simp only [attributes]
    split
    · exact ih ..
    split
    · exact .reject (by simp)
    split
    · refine .bind (Metric.extractOneJson_inquires hm ..) fun size => ?_
      rcases size with _ | ⟨size, dependencies⟩
      · exact .reject (by simp)
      · exact .dependOn hw (.weaken (ih ..) (by simp))
    split
    · exact ih ..
    · split
      · exact .reject (by simp)
      · exact ih ..

theorem realize_inquires (catalog : Catalog) (d : FontDescriptor) :
    Inquires asks writes before (fun x => before ∧ x.isSome = true) fun _ => realize catalog d := by
  refine .lift fun expected => ?_
  cases expected with
  | none => exact .reject (by simp)
  | some expected =>
    refine .lift fun realized => ?_
    dsimp only
    split
    · exact .reject (by simp)
    · exact .lift fun size => .pure (by simp)

theorem baseDescriptor_inquires (hf : asks .font) (owner : String) (hw : writes .font owner)
    (entry : FontEntry) :
    Inquires asks writes before (fun x => before ∧ x.isSome = true)
      fun q => baseDescriptor (q .font) owner entry := by
  unfold baseDescriptor
  split
  · exact .pure (by simp)
  · exact .dependOn hw (.bind (.fetch hf) fun font => .pure (by simp))

theorem addAttributes_inquires (hm : asks .metric) (owner : String) (hw : writes .font owner)
    (entry : FontEntry) (d : FontDescriptor) :
    Inquires asks writes before (fun x => before ∧ x.isSome = true)
      fun q => addAttributes q.metric owner entry d := by
  unfold addAttributes
  split
  · exact .pure (by simp)
  · exact .bind (attributes_inquires hm owner hw ..) fun declared => .pure (by simp)
  · exact .reject (by simp)

theorem addSize_inquires (hm : asks .metric) (owner : String) (hw : writes .font owner)
    (entry : FontEntry) (d : FontDescriptor) :
    Inquires asks writes before (fun x => before ∧ x.isSome = true)
      fun q => addSize q.metric owner entry d := by
  unfold addSize
  split
  · exact .pure (by simp)
  · refine .bind (Metric.extractOne_inquires hm ..) fun size => ?_
    rcases size with _ | ⟨value, dependencies⟩
    · exact .reject (by simp)
    · exact .dependOn hw (.pure (by simp))

theorem compute_inquires (hm : asks .metric) (hf : asks .font) (catalog : Catalog) (owner : String)
    (hw : writes .font owner) (entry : FontEntry) :
    Inquires asks writes before (fun x => before ∧ x.isSome = true)
      fun q => compute q.metric catalog (q .font) owner entry := by
  refine .bind (baseDescriptor_inquires hf owner hw entry) fun base => ?_
  cases base with
  | none => exact .pure (by simp)
  | some base =>
    refine .bind (addAttributes_inquires hm owner hw entry base) fun declared => ?_
    cases declared with
    | none => exact .pure (by simp)
    | some declared =>
      refine .bind (addSize_inquires hm owner hw entry _) fun d => ?_
      cases d with
      | none => exact .pure (by simp)
      | some d => exact .weaken (realize_inquires ..) (by simp)

end FontLayers

namespace TextLayers

/-- The references of text attributes to entries of other kinds. -/
def References.of (q : Resolvers) : References := ⟨q.metric, q .color, q .font⟩

theorem named_inquires {a : Asset} (ha : asks a) (owner key : String) (hw : writes .textAttributes owner)
    (value : Json) :
    Inquires asks writes before (fun x => before ∧ x.isSome = true) fun q => named a (q a) owner key value := by
  unfold named
  split
  · exact .dependOn hw (.fetch ha)
  · exact .reject (by simp)

theorem readAttribute_inquires (hm : asks .metric) (hc : asks .color) (hf : asks .font) (owner : String)
    (hw : writes .textAttributes owner) (draft : Draft) (key : String) (value : Json) :
    Inquires asks writes (before ∧ draft.errors = 0) (fun d => before ∧ d.errors = 0)
      fun q => readAttribute (.of q) owner draft key value := by
  unfold readAttribute
  split
  · refine .bind (named_inquires hf owner key hw value) fun font => ?_
    cases font with
    | none => exact .pure (by simp [Draft.spoil])
    | some font => exact .pure (by simp [Draft.set])
  split
  · refine .bind (named_inquires hc owner key hw value) fun color => ?_
    cases color with
    | none => exact .pure (by simp [Draft.spoil])
    | some color => exact .pure (by simp [Draft.set])
  split
  · refine .bind (Metric.extractOneJson_inquires hm ..) fun read => ?_
    rcases read with _ | ⟨tracking, dependencies⟩
    · exact .warn (.pure (by simp [Draft.spoil]))
    · exact .dependOn hw (.pure (by simp))
  split
  · exact .warn (.pure (by simp [Draft.spoil]))
  · exact .warn (.pure (by simp [Draft.spoil]))

theorem readAttributes_inquires (hm : asks .metric) (hc : asks .color) (hf : asks .font) (owner : String)
    (hw : writes .textAttributes owner) (declared : List (String × Json)) (draft : Draft) :
    Inquires asks writes (before ∧ draft.errors = 0) (fun d => before ∧ d.errors = 0)
      fun q => readAttributes (.of q) owner declared draft := by
  induction declared generalizing draft with
  | nil => exact .pure id
  | cons member rest ih => exact .bind (readAttribute_inquires hm hc hf owner hw ..) fun draft => ih draft

theorem baseDraft_inquires (ht : asks .textAttributes) (owner : String) (hw : writes .textAttributes owner)
    (entry : TextAttributesEntry) :
    Inquires asks writes before (fun d => before ∧ d.errors = 0)
      fun q => baseDraft (q .textAttributes) owner entry := by
  unfold baseDraft
  split
  · exact .pure And.left
  · refine .dependOn hw (.bind (.fetch ht) fun base => ?_)
    cases base with
    | none => exact .pure (by simp [Draft.spoil])
    | some base => exact .pure (by simp)

theorem addKern_inquires (draft : Draft) :
    Inquires asks writes (before ∧ draft.errors = 0) (fun d => before ∧ d.errors = 0) fun _ => addKern draft := by
  unfold addKern
  split
  · split
    · exact .pure (by simp [Draft.set])
    · exact .warn (.pure (by simp [Draft.spoil]))
  · exact .pure id

/-- All that comes after the base succeeds only with a base that did. -/
theorem readOver_inquires (hm : asks .metric) (hc : asks .color) (hf : asks .font) (owner : String)
    (hw : writes .textAttributes owner) (entry : TextAttributesEntry) (base : Draft) :
    Inquires asks writes (before ∧ base.errors = 0) (fun x => before ∧ x.isSome = true) (fun q => do
      match declared? entry with
      | .error value => Resolve.reject (.textAttributesNotObject value)
      | .ok declared =>
        let draft ← addKern (← readAttributes (.of q) owner declared base)
        if draft.errors = 0 then return some (⟨draft.attributes, draft.tracking⟩ : TextAttributes)
        else Resolve.reject (.textAttributeErrors draft.errors)) := by
  split
  · exact .reject (by simp)
  · refine .bind (readAttributes_inquires hm hc hf owner hw _ base) fun read => ?_
    refine .bind (addKern_inquires read) fun draft => ?_
    split
    · next h => exact .pure fun hg => ⟨hg.1, h⟩
    · exact .reject (by simp)

theorem compute_inquires (hm : asks .metric) (hc : asks .color) (hf : asks .font) (ht : asks .textAttributes)
    (owner : String) (hw : writes .textAttributes owner) (entry : TextAttributesEntry) :
    Inquires asks writes before (fun x => before ∧ x.isSome = true)
      fun q => compute (.of q) (q .textAttributes) owner entry :=
  .bind (baseDraft_inquires ht owner hw entry) fun base => readOver_inquires hm hc hf owner hw entry base

end TextLayers

namespace ImageLayers

/-- The references of images to entries of other kinds. -/
def References.of (q : Resolvers) (hasPlacement : String → Bool) : References :=
  ⟨q.metric, q .color, hasPlacement⟩

variable {hasPlacement : String → Bool} {owner : String}

theorem ofFile_inquires (surroundings : Surroundings) (path : String) :
    Inquires asks writes before (fun x => before ∧ x.isSome = true) fun _ => ofFile surroundings path := by
  unfold ofFile
  split
  · exact .throw
  · simp only
    split
    · exact .throw
    split
    · exact .reject (by simp)
    split
    · exact .reject (by simp)
    split
    · exact .pure (by simp)
    · exact .reject (by simp)
    · exact .reject (by simp)
    · exact .throw
    · exact .throw

theorem backgroundColor_inquires (hc : asks .color) (hw : writes .image owner) (key : String)
    (name : Option String) :
    Inquires asks writes before (fun x => before ∧ x.isSome = true)
      fun q => backgroundColor (.of q hasPlacement) owner key name := by
  unfold backgroundColor
  split
  · exact .pure (by simp)
  · refine .bind (.fetch hc) fun color => ?_
    cases color with
    | none => exact .pure (by simp)
    | some color => exact .dependOn hw (.pure (by simp))

theorem backgroundLength_inquires (hm : asks .metric) (hw : writes .image owner) (key : String)
    (expression : Option String) :
    Inquires asks writes before (fun x => before ∧ x.isSome = true)
      fun q => backgroundLength (.of q hasPlacement) owner key expression := by
  unfold backgroundLength
  split
  · exact .pure (by simp)
  · refine .bind (Metric.extractOne_inquires hm ..) fun read => ?_
    rcases read with _ | ⟨value, dependencies⟩
    · exact .pure (by simp)
    · exact .dependOn hw (.pure (by simp))

theorem backgroundLengths_inquires (hm : asks .metric) (hw : writes .image owner)
    (expressions : List (String × Option String)) :
    Inquires asks writes before (fun x => before ∧ x.isSome = true)
      fun q => backgroundLengths (.of q hasPlacement) owner expressions := by
  induction expressions with
  | nil => exact .pure (by simp)
  | cons expression rest ih =>
    refine .bind (backgroundLength_inquires hm hw ..) fun value => ?_
    cases value with
    | none => exact .pure (by simp)
    | some value => exact .bind (.weaken ih (by simp)) fun others => .pure (by simp)

theorem ofBackground_inquires (hm : asks .metric) (hc : asks .color) (hw : writes .image owner)
    (b : Background) :
    Inquires asks writes before (fun x => before ∧ x.isSome = true)
      fun q => ofBackground (.of q hasPlacement) owner b := by
  refine .bind (backgroundColor_inquires hc hw ..) fun fill => ?_
  cases fill with
  | none => exact .pure (by simp)
  | some fill =>
    refine .bind (backgroundColor_inquires hc hw ..) fun stroke => ?_
    cases stroke with
    | none => exact .pure (by simp)
    | some stroke =>
      refine .bind (backgroundLengths_inquires hm hw _) fun lengths => ?_
      split
      · exact .lift fun image => .pure (by simp)
      · exact .pure (by simp)

theorem base_inquires (hm : asks .metric) (hc : asks .color) (hi : asks .image) (hw : writes .image owner)
    (surroundings : Surroundings) (entry : ImageEntry) :
    Inquires asks writes before (fun x => before ∧ x.isSome = true)
      fun q => base (.of q hasPlacement) surroundings (q .image) owner entry := by
  unfold base
  split
  · exact .dependOn hw (.fetch hi)
  · exact ofFile_inquires ..
  · exact ofBackground_inquires hm hc hw _

theorem addInsets_inquires (hm : asks .metric) (hw : writes .image owner) (entry : ImageEntry)
    (image : Image) :
    Inquires asks writes before (fun x => before ∧ x.isSome = true)
      fun q => addInsets (.of q hasPlacement) owner entry image := by
  unfold addInsets
  split
  · exact .pure (by simp)
  · refine .bind (Metric.extractInsets_inquires hm ..) fun read => ?_
    cases read with
    | none => exact .pure (by simp)
    | some read => exact .dependOn hw (.pure (by simp))

theorem addPlacement_inquires (hw : writes .image owner) (entry : ImageEntry) (image : Image) :
    Inquires asks writes before (fun x => before ∧ x.isSome = true)
      fun q => addPlacement (.of q hasPlacement) owner entry image := by
  unfold addPlacement
  split
  · exact .pure (by simp)
  · next name _ =>
    by_cases h : hasPlacement name = true
    · simp only [References.of, h, if_true]
      exact .dependOn hw (.pure (by simp))
    · simp only [References.of, h]
      exact .reject (by simp)

theorem compute_inquires (hm : asks .metric) (hc : asks .color) (hi : asks .image) (hw : writes .image owner)
    (surroundings : Surroundings) (entry : ImageEntry) :
    Inquires asks writes before (fun x => before ∧ x.isSome = true)
      fun q => compute (.of q hasPlacement) surroundings (q .image) owner entry := by
  refine .bind (base_inquires hm hc hi hw ..) fun image => ?_
  cases image with
  | none => exact .pure (by simp)
  | some image =>
    refine .bind (addInsets_inquires hm hw ..) fun image => ?_
    cases image with
    | none => exact .pure (by simp)
    | some image => exact .weaken (addPlacement_inquires hw ..) (by simp)

end ImageLayers

namespace ButtonLayers

/-- The references of button styles to entries of other kinds. -/
def References.of (q : Resolvers) : References := ⟨q.metric, q .color, q .textAttributes, q .image⟩

variable {owner : String}

theorem element_inquires {a : Asset} (ha : asks a) (hw : writes .buttonStyle owner) (key : String)
    (name : Option String) :
    Inquires asks writes before (fun x => before ∧ x.2 = 0) fun q => element a (q a) owner key name := by
  unfold element
  split
  · exact .pure And.left
  · refine .bind (.fetch ha) fun value => ?_
    cases value with
    | none => exact .pure (by simp)
    | some value => exact .dependOn hw (.pure (by simp))

theorem stateElements_inquires (ht : asks .textAttributes) (hi : asks .image) (hw : writes .buttonStyle owner)
    (names : ElementNames) :
    Inquires asks writes before (fun x => before ∧ x.2 = 0)
      fun q => stateElements (.of q) owner names := by
  refine .bind (element_inquires ht hw ..) fun titleAttributes => ?_
  refine .bind (element_inquires hi hw ..) fun titleImage => ?_
  refine .bind (element_inquires hi hw ..) fun backgroundImage => ?_
  dsimp only
  split
  · exact .pure (by grind)
  · exact .pure (by simp_all)

theorem states_inquires (ht : asks .textAttributes) (hi : asks .image) (hw : writes .buttonStyle owner)
    (declared : List (ButtonState × Option ElementNames)) :
    Inquires asks writes before (fun x => before ∧ x.2 = 0) fun q => states (.of q) owner declared := by
  induction declared generalizing before with
  | nil => exact .pure And.left
  | cons state rest ih =>
    rcases state with ⟨state, _ | names⟩
    · exact ih
    · refine .bind (stateElements_inquires ht hi hw names) fun elements => ?_
      exact .bind ih fun others => .pure (by grind)

theorem contentInsets_inquires (hm : asks .metric) (hw : writes .buttonStyle owner) (raw : Option String) :
    Inquires asks writes before (fun x => before ∧ x.2 = 0) fun q => contentInsets (.of q) owner raw := by
  unfold contentInsets
  split
  · exact .pure And.left
  · refine .bind (Metric.extractInsets_inquires hm ..) fun read => ?_
    cases read with
    | none => exact .pure (by simp)
    | some read => exact .dependOn hw (.pure (by simp))

theorem compute_inquires (hm : asks .metric) (hc : asks .color) (ht : asks .textAttributes) (hi : asks .image)
    (hw : writes .buttonStyle owner) (entry : ButtonStyleEntry) :
    Inquires asks writes before (fun x => before ∧ x.isSome = true) fun q => compute (.of q) owner entry := by
  refine .bind (states_inquires ht hi hw _) fun states => ?_
  refine .bind (contentInsets_inquires hm hw _) fun insets => ?_
  refine .bind (element_inquires hc hw ..) fun tint => ?_
  dsimp only
  split
  · exact .pure (by simp_all)
  · exact .reject (by simp)

end ButtonLayers

end DesignTokens
