import DesignTokens.Proofs.Resolution.Request

/-!
# Computations that warn

The computation of an entry that comes to nothing has said why. Most of its parts give a notice themselves where
they fail; some fail without a word and leave the notice to the part that called them, and others count errors and
give one notice for all of them in the end. Where a reference is at fault, the notice of the entry that refers
comes on top of whatever the other entry had to say in its own time.

`Warns` says so of a part: what it comes to is bad only if a warning was given on the way. Parts that follow one
another may assume that no warning was given before them (`clean`), since otherwise there is nothing left to show.
Of the resolvers that a part asks nothing is known but that they add to the history.

* `Reading.compute_warns` — a computation that comes to nothing has warned, unless its entry is blank.
* `Reading.compute_blank` — a blank entry comes to nothing without a word.
-/

namespace DesignTokens

open Resolve

variable {α β : Type}

namespace Progress

/-- The history has been added to. -/
def Grows (p p' : Progress) : Prop := p.history <:+ p'.history

/-- A warning has been given. -/
def Warned (p p' : Progress) : Prop :=
  ∃ new notice, p'.history = new ++ p.history ∧ .noticed notice ∈ new ∧ notice.level = .warning

variable {p p' p'' : Progress}

theorem Grows.refl (p : Progress) : p.Grows p := List.suffix_refl _

theorem Grows.trans (h : p.Grows p') (h' : p'.Grows p'') : p.Grows p'' := List.IsSuffix.trans h h'

theorem grows_record (p : Progress) (e : Event) : p.Grows (p.record e) := List.suffix_cons _ _

theorem grows_modify (p : Progress) (a : Asset) (name : String) (f : Cell a.Value → Cell a.Value) :
    p.Grows (p.modify a name f) := List.suffix_refl _

theorem warned_record (p : Progress) {notice : Notice} (h : notice.level = .warning) :
    p.Warned (p.record (.noticed notice)) :=
  ⟨[.noticed notice], notice, rfl, List.mem_cons_self .., h⟩

theorem Warned.before (h : p.Warned p') (hgrows : p'.Grows p'') : p.Warned p'' := by
  obtain ⟨new, notice, hhistory, hmem, hlevel⟩ := h
  obtain ⟨more, hmore⟩ := hgrows
  refine ⟨more ++ new, notice, ?_, List.mem_append_right _ hmem, hlevel⟩
  rw [← hmore, hhistory, List.append_assoc]

theorem Warned.after (h : p'.Warned p'') (hgrows : p.Grows p') : p.Warned p'' := by
  obtain ⟨new, notice, hhistory, hmem, hlevel⟩ := h
  obtain ⟨more, hmore⟩ := hgrows
  refine ⟨new ++ more, notice, ?_, List.mem_append_left _ hmem, hlevel⟩
  rw [hhistory, ← hmore, List.append_assoc]

end Progress

/-- A computation that adds to the history if it comes to an end. -/
def Resolve.Grows (f : Resolve α) : Prop := ∀ ⦃p x p'⦄, f p = .ok x p' → p.Grows p'

/-- Resolvers that add to the history. -/
def Resolvers.Grow (q : Resolvers) : Prop := ∀ a name, Resolve.Grows (q a name)

namespace Resolve.Grows

theorem pure (value : α) : Resolve.Grows (pure value : Resolve α) := by
  intro p x p' h
  cases h
  exact .refl p

theorem throw (fault : Fault) : Resolve.Grows (throw fault : Resolve α) := by
  intro p x p' h
  cases h

theorem warn (notice : Notice) : Resolve.Grows (Resolve.warn notice) := by
  intro p x p' h
  cases h
  exact p.grows_record _

theorem dependOn (a : Asset) (name : String) (dependencies : List Dependency) :
    Resolve.Grows (Resolve.dependOn a name dependencies) := by
  intro p x p' h
  cases h
  exact p.grows_modify ..

theorem bind {f : Resolve α} {g : α → Resolve β} (hf : Resolve.Grows f) (hg : ∀ x, Resolve.Grows (g x)) :
    Resolve.Grows (f >>= g) := by
  intro p y p'' h
  obtain ⟨x, p', hfirst, hrest⟩ := bind_eq_ok_iff.mp h
  exact (hf hfirst).trans (hg x hrest)

theorem answer {q : Resolvers} (hq : q.Grow) (a : Asset) (name : String) : Resolve.Grows (q.answer a name) := by
  refine (hq a name).bind fun requested p x p' h => ?_
  cases h
  exact .refl p

theorem run {q : Resolvers} (hq : q.Grow) (t : Inquiry α) : Resolve.Grows (t.run q) := by
  induction t with
  | done value => exact .pure value
  | fail fault => exact .throw fault
  | note notice rest ih => exact (warn notice).bind fun _ => ih
  | use a name dependencies rest ih => exact (dependOn a name dependencies).bind fun _ => ih
  | ask a name next ih => exact (answer hq a name).bind ih

end Resolve.Grows

/-- A computation that adds to the history. If no warning was given before and it comes to something bad, it has
given one. -/
structure Warns (clean : Prop) (bad : α → Prop) (f : Resolvers → Resolve α) : Prop where
  grows : ∀ q : Resolvers, q.Grow → Resolve.Grows (f q)
  warned : ∀ q : Resolvers, q.Grow → clean → ∀ ⦃p x p'⦄, f q p = .ok x p' → bad x → p.Warned p'

namespace Warns

variable {clean : Prop} {bad : α → Prop} {asks : Asset → Prop} {writes : Asset → String → Prop}

theorem pure {value : α} (h : clean → ¬ bad value) : Warns clean bad fun _ => pure value where
  grows _ _ := .pure value
  warned _ _ hclean _ _ _ hx hbad := by
    cases hx
    exact absurd hbad (h hclean)

theorem throw {fault : Fault} : Warns clean bad fun _ => throw fault where
  grows _ _ := .throw fault
  warned _ _ _ _ _ _ hx _ := by cases hx

/-- A part from which nothing counts as bad need not warn. -/
theorem of_inquires {good : α → Prop} {f : Resolvers → Resolve α} (before : Prop)
    (h : Inquires asks writes before good f) : Warns clean (fun _ => False) f where
  grows q hq := by
    obtain ⟨t, hrun, -, -⟩ := h
    rw [hrun]
    exact .run hq t
  warned _ _ _ _ _ _ _ hbad := hbad.elim

/-- After a warning nothing is left to show. -/
theorem warn {notice : Notice} (hlevel : notice.level = .warning) {f : Resolvers → Resolve α}
    (h : Warns False bad f) : Warns clean bad (fun q => do Resolve.warn notice; f q) where
  grows q hq := (Resolve.Grows.warn notice).bind fun _ => h.grows q hq
  warned q hq _ p _ _ hx _ := (p.warned_record hlevel).before (h.grows q hq hx)

theorem reject {notice : Notice} (hlevel : notice.level = .warning) {bad : Option α → Prop} :
    Warns clean bad fun _ => reject notice :=
  warn hlevel (pure False.elim)

theorem dependOn {a : Asset} {name : String} {dependencies : List Dependency} {f : Resolvers → Resolve α}
    (h : Warns clean bad f) : Warns clean bad (fun q => do Resolve.dependOn a name dependencies; f q) where
  grows q hq := (Resolve.Grows.dependOn a name dependencies).bind fun _ => h.grows q hq
  warned q hq hclean p _ _ hx hbad := (h.warned q hq hclean hx hbad).after (p.grows_modify ..)

theorem bind {f : Resolvers → Resolve α} {g : α → Resolvers → Resolve β} {worst : β → Prop}
    (hf : Warns clean bad f) (hg : ∀ x, Warns (clean ∧ ¬ bad x) worst (g x)) :
    Warns clean worst (fun q => do g (← f q) q) where
  grows q hq := (hf.grows q hq).bind fun x => (hg x).grows q hq
  warned q hq hclean p y p'' hy hworst := by
    obtain ⟨x, p', hfirst, hrest⟩ := bind_eq_ok_iff.mp hy
    by_cases hbad : bad x
    · exact (hf.warned q hq hclean hfirst hbad).before ((hg x).grows q hq hrest)
    · exact ((hg x).warned q hq ⟨hclean, hbad⟩ hrest hworst).after (hf.grows q hq hfirst)

theorem answer {a : Asset} {name : String} {g : Answer a.Value → Resolvers → Resolve α}
    (h : ∀ x, Warns clean bad (g x)) : Warns clean bad (fun q => do g (← q.answer a name) q) where
  grows q hq := (Resolve.Grows.answer hq a name).bind fun x => (h x).grows q hq
  warned q hq hclean p y p'' hy hbad := by
    obtain ⟨x, p', hfirst, hrest⟩ := bind_eq_ok_iff.mp hy
    exact ((h x).warned q hq hclean hrest hbad).after (Resolve.Grows.answer hq a name hfirst)

theorem lift {e : Except Fault β} {g : β → Resolvers → Resolve α} (h : ∀ x, Warns clean bad (g x)) :
    Warns clean bad (fun q => do g (← Resolve.lift e) q) := by
  cases e with
  | error fault => exact throw
  | ok x => simpa only [Resolve.lift, pure_bind] using h x

theorem metric {name : String} {g : MetricLookup → Resolvers → Resolve α}
    (h : ∀ x : Answer Float, Warns clean bad (g x.toMetric)) :
    Warns clean bad (fun q => do g (← q.metric name) q) := by
  have hanswer := @answer α clean bad .metric name (fun x => g x.toMetric) h
  simpa only [Resolvers.metric, bind_assoc, pure_bind] using hanswer

theorem color {name : String} {g : ColorText.Lookup → Resolvers → Resolve α}
    (h : ∀ x : Answer Color, Warns clean bad (g x.toColor)) :
    Warns clean bad (fun q => do g (← q.color name) q) := by
  have hanswer := @answer α clean bad .color name (fun x => g x.toColor) h
  simpa only [Resolvers.color, bind_assoc, pure_bind] using hanswer

/-- A reference that leads to no valid entry is reported where it is fetched. -/
theorem fetch {a : Asset} {name key : String} {user : Kind} :
    Warns clean (· = none) fun q => DesignTokens.fetch a (q a) name key user := by
  simp only [Resolvers.fetch_eq]
  refine answer fun x => ?_
  cases x with
  | missing => exact reject rfl
  | invalid => exact reject rfl
  | found value => exact pure (by simp)

end Warns

/-! ### The parts of the computations -/

variable {clean : Prop}

namespace Metric

/-- A reading with fewer values than requested, or none at all. -/
def Lacks (requested : Option Int) (x : Option Extraction) : Prop :=
  ∀ read, x = some read → requested.any fun count => (read.values.length : Int) < count

theorem namedValue_warns (expecting name whole : String) :
    Warns clean (· = none) fun q => namedValue q.metric expecting name whole := by
  refine .metric fun x => ?_
  cases x with
  | missing => exact .reject rfl
  | invalid => exact .reject rfl
  | found value => exact .pure (by simp)

theorem conclude_warns (expecting whole : String) (requested : Option Int) (rest : List String)
    (read : Extraction) :
    Warns clean (Lacks requested) fun _ => conclude expecting whole requested rest read := by
  unfold conclude
  split
  · exact .reject rfl
  split
  · exact .reject rfl
  split
  · exact .reject rfl
  · next h => exact .pure fun _ hlacks => h (hlacks read rfl)

theorem scan_warns (expecting : String) (words : List String) (whole : String) (requested : Option Int)
    (read : Extraction) :
    Warns clean (Lacks requested) fun q => scan q.metric expecting words whole requested read := by
  induction words generalizing clean whole requested read with
  | nil => exact conclude_warns ..
  | cons word rest ih =>
    simp only [scan]
    split
    · exact conclude_warns ..
    split
    · split
      · exact .reject rfl
      · refine .bind (ih ..) fun args => ?_
        cases args with
        | none => exact .reject rfl
        | some args =>
          dsimp only
          split
          · exact .reject rfl
          · exact conclude_warns ..
    · split
      · exact ih ..
      split
      · split
        · exact .reject rfl
        · refine .bind (namedValue_warns ..) fun value => ?_
          cases value with
          | none => exact .pure (by simp)
          | some value => exact conclude_warns ..
      · refine .lift fun literal => ?_
        cases literal with
        | some value => exact ih ..
        | none =>
          refine .bind (namedValue_warns ..) fun value => ?_
          cases value with
          | none => exact .pure (by simp)
          | some value => exact ih ..

/-- Where one value is requested, a reading without values is reported by the reading. -/
theorem extractOne_warns (expecting expression : String) :
    Warns clean (· = none) fun q => extractOne q.metric expecting expression := by
  refine .bind (scan_warns ..) fun read => ?_
  rcases read with _ | ⟨_ | ⟨value, values⟩, dependencies⟩
  · exact .pure fun h _ => h.2 fun _ hread => by cases hread
  · refine .pure fun h _ => h.2 fun read hread => ?_
    cases hread
    rfl
  · exact .pure (by simp)

theorem extractEach_warns (expecting : String) (expressions : List String) :
    Warns clean (· = none) fun q => extractEach q.metric expecting expressions := by
  induction expressions generalizing clean with
  | nil => exact .pure (by simp)
  | cons expression rest ih =>
    refine .bind (extractOne_warns ..) fun first => ?_
    rcases first with _ | ⟨value, dependencies⟩
    · exact .pure (by simp)
    refine .bind ih fun others => ?_
    cases others with
    | none => exact .pure (by simp)
    | some others => exact .pure (by simp)

theorem extractInsets_warns (expecting raw : String) :
    Warns clean (· = none) fun q => extractInsets q.metric expecting raw := by
  refine .bind (extractEach_warns ..) fun read => ?_
  cases read with
  | none => exact .reject rfl
  | some read =>
    dsimp only
    split
    · exact .pure (by simp)
    · exact .reject rfl

/-- A value that is no text fails without a word. -/
theorem extractOneJson_grows (expecting : String) (value : Json) :
    Warns clean (fun _ => False) fun q => extractOneJson q.metric expecting value := by
  have h : Inquires (fun _ => True) (fun _ _ => False) True (fun x => True ∧ x.isSome = true)
      fun q => extractOneJson q.metric expecting value := extractOneJson_inquires trivial ..
  exact .of_inquires True h

theorem compute_warns (name expression : String) (htext : expression ≠ "") :
    Warns clean (· = none) fun q => compute q.metric name expression := by
  unfold compute
  split
  · next h => exact absurd (String.isEmpty_iff.mp h) htext
  refine .bind (extractOne_warns ..) fun read => ?_
  rcases read with _ | ⟨value, dependencies⟩
  · exact .pure (by simp)
  · exact .dependOn (.pure (by simp))

end Metric

namespace ColorText

theorem webBytes_warns (raw : String) (digits : List Char) (read : List Nat) :
    Warns clean (· = none) fun _ => webBytes raw digits read := by
  fun_induction webBytes raw digits read with
  | case1 => assumption
  | case2 => exact .reject rfl
  | case3 => exact .reject rfl
  | case4 => exact .reject rfl
  | case5 => exact .pure (by simp)
  | case6 => exact .pure (by simp)
  | case7 => exact .reject rfl

theorem normalise_warns (format : ColorFormat) (raw : String) (values : List (Float × String))
    (c : Components) : Warns clean (· = none) fun _ => normalise format raw values c := by
  fun_induction normalise format raw values c with
  | case1 => exact .reject rfl
  | case2 => exact .pure (by simp)
  | case3 => assumption
  | case4 => assumption
  | case5 => exact .reject rfl

theorem ofComponents_warns (format : ColorFormat) (raw : String) (components : List Float) :
    Warns clean (· = none) fun _ => ofComponents format raw components := by
  unfold ofComponents
  split
  · exact .pure (by simp)
  · split
    · exact .lift fun color => .pure (by simp)
    · exact .pure (by simp)
  · exact .reject rfl

theorem named_warns (isEntry : String → Bool) (owner raw name : String) :
    Warns clean (· = none) fun q => named q.color isEntry owner raw name := by
  unfold named
  split
  · refine .dependOn (.color fun x => ?_)
    cases x with
    | missing => exact .reject rfl
    | invalid => exact .reject rfl
    | found color => exact .pure (by simp)
  · split
    · exact .pure (by simp)
    · exact .reject rfl

theorem compute_warns (isEntry : String → Bool) (owner raw : String) :
    Warns clean (· = none) fun q => compute q.metric q.color isEntry owner raw := by
  unfold compute
  split
  · exact .reject rfl
  split
  · exact .reject rfl
  split
  · exact .reject rfl
  split
  · exact named_warns ..
  · refine .bind (webBytes_warns ..) fun bytes => ?_
    cases bytes with
    | none => exact .pure (by simp)
    | some bytes => exact ofComponents_warns ..
  · refine .bind (Metric.extractEach_warns ..) fun read => ?_
    cases read with
    | none => exact .pure (by simp)
    | some read =>
      refine .dependOn (.bind (normalise_warns ..) fun components => ?_)
      cases components with
      | none => exact .pure (by simp)
      | some components => exact ofComponents_warns ..

end ColorText

namespace FontLayers

theorem attributes_warns (owner : String) (declared : List (String × Json)) (read : Mapping Json) :
    Warns clean (· = none) fun q => attributes q.metric owner declared read := by
  induction declared generalizing clean read with
  | nil => exact .pure (by simp)
  | cons member rest ih =>
    obtain ⟨key, value⟩ := member
    simp only [attributes]
    split
    · exact ih ..
    split
    · exact .reject rfl
    split
    · refine .bind (Metric.extractOneJson_grows ..) fun size => ?_
      rcases size with _ | ⟨size, dependencies⟩
      · exact .reject rfl
      · exact .dependOn (ih ..)
    split
    · exact ih ..
    · split
      · exact .reject rfl
      · exact ih ..

theorem realize_warns (catalog : Catalog) (d : FontDescriptor) :
    Warns clean (· = none) fun _ => realize catalog d := by
  refine .lift fun expected => ?_
  cases expected with
  | none => exact .reject rfl
  | some expected =>
    refine .lift fun realized => ?_
    dsimp only
    split
    · exact .reject rfl
    · exact .lift fun size => .pure (by simp)

theorem baseDescriptor_warns (owner : String) (entry : FontEntry) :
    Warns clean (· = none) fun q => baseDescriptor (q .font) owner entry := by
  unfold baseDescriptor
  split
  · exact .pure (by simp)
  · exact .dependOn (.bind .fetch fun font => .pure (by simp))

theorem addAttributes_warns (owner : String) (entry : FontEntry) (d : FontDescriptor) :
    Warns clean (· = none) fun q => addAttributes q.metric owner entry d := by
  unfold addAttributes
  split
  · exact .pure (by simp)
  · exact .bind (attributes_warns ..) fun declared => .pure (by simp)
  · exact .reject rfl

theorem addSize_warns (owner : String) (entry : FontEntry) (d : FontDescriptor) :
    Warns clean (· = none) fun q => addSize q.metric owner entry d := by
  unfold addSize
  split
  · exact .pure (by simp)
  · refine .bind (Metric.extractOne_warns ..) fun size => ?_
    rcases size with _ | ⟨value, dependencies⟩
    · exact .reject rfl
    · exact .dependOn (.pure (by simp))

theorem compute_warns (catalog : Catalog) (owner : String) (entry : FontEntry) :
    Warns clean (· = none) fun q => compute q.metric catalog (q .font) owner entry := by
  refine .bind (baseDescriptor_warns owner entry) fun base => ?_
  cases base with
  | none => exact .pure (by simp)
  | some base =>
    refine .bind (addAttributes_warns owner entry base) fun declared => ?_
    cases declared with
    | none => exact .pure (by simp)
    | some declared =>
      refine .bind (addSize_warns owner entry _) fun d => ?_
      cases d with
      | none => exact .pure (by simp)
      | some d => exact realize_warns ..

end FontLayers

namespace TextLayers

/-- Errors of single attributes are counted, and the count is reported whatever was said before. -/
theorem compute_warns (owner : String) (entry : TextAttributesEntry) :
    Warns clean (· = none) fun q => compute (.of q) (q .textAttributes) owner entry := by
  have counts {β : Type} {clean : Prop} {good : β → Prop} {f : Resolvers → Resolve β} (before : Prop)
      (h : Inquires (fun _ => True) (fun a name => a = .textAttributes ∧ name = owner) before good f) :
      Warns clean (fun _ => False) f := .of_inquires before h
  refine .bind (counts True (baseDraft_inquires trivial owner ⟨rfl, rfl⟩ entry)) fun base => ?_
  split
  · exact .reject rfl
  · next declared _ =>
    refine .bind (counts (True ∧ base.errors = 0) (readAttributes_inquires trivial trivial trivial owner ⟨rfl, rfl⟩
      declared base)) fun read => ?_
    refine .bind (counts (True ∧ read.errors = 0) (addKern_inquires read)) fun draft => ?_
    split
    · exact .pure (by simp)
    · exact .reject rfl

end TextLayers

namespace ImageLayers

variable {hasPlacement : String → Bool} {owner : String}

theorem ofFile_warns (surroundings : Surroundings) (path : String) :
    Warns clean (· = none) fun _ => ofFile surroundings path := by
  unfold ofFile
  split
  · exact .throw
  · simp only
    split
    · exact .throw
    split
    · exact .reject rfl
    split
    · exact .reject rfl
    split
    · exact .pure (by simp)
    · exact .reject rfl
    · exact .reject rfl
    · exact .throw
    · exact .throw

theorem backgroundColor_warns (key : String) (name : Option String) :
    Warns clean (· = none) fun q => backgroundColor (.of q hasPlacement) owner key name := by
  unfold backgroundColor
  split
  · exact .pure (by simp)
  · refine .bind .fetch fun color => ?_
    cases color with
    | none => exact .pure (by simp)
    | some color => exact .dependOn (.pure (by simp))

theorem backgroundLength_warns (key : String) (expression : Option String) :
    Warns clean (· = none) fun q => backgroundLength (.of q hasPlacement) owner key expression := by
  unfold backgroundLength
  split
  · exact .pure (by simp)
  · refine .bind (Metric.extractOne_warns ..) fun read => ?_
    rcases read with _ | ⟨value, dependencies⟩
    · exact .pure (by simp)
    · exact .dependOn (.pure (by simp))

/-- Without a word there are as many lengths as expressions. -/
theorem backgroundLengths_warns (expressions : List (String × Option String)) :
    Warns clean (fun x => x.map List.length ≠ some expressions.length)
      fun q => backgroundLengths (.of q hasPlacement) owner expressions := by
  induction expressions generalizing clean with
  | nil => exact .pure (by simp)
  | cons expression rest ih =>
    refine .bind (backgroundLength_warns ..) fun value => ?_
    cases value with
    | none => exact .pure (by simp)
    | some value => exact .bind ih fun others => .pure (by cases others <;> simp)

theorem ofBackground_warns (b : Background) :
    Warns clean (· = none) fun q => ofBackground (.of q hasPlacement) owner b := by
  refine .bind (backgroundColor_warns ..) fun fill => ?_
  cases fill with
  | none => exact .pure (by simp)
  | some fill =>
    refine .bind (backgroundColor_warns ..) fun stroke => ?_
    cases stroke with
    | none => exact .pure (by simp)
    | some stroke =>
      refine .bind (backgroundLengths_warns _) fun lengths => ?_
      split
      · exact .lift fun image => .pure (by simp)
      · next hlengths =>
        refine .pure fun h _ => h.2 fun hcount => ?_
        obtain ⟨values, rfl, hfour⟩ := Option.map_eq_some_iff.mp hcount
        match values, hfour with
        | [v₁, v₂, v₃, v₄], _ => exact hlengths v₁ v₂ v₃ v₄ rfl

theorem base_warns (surroundings : Surroundings) (entry : ImageEntry) :
    Warns clean (· = none) fun q => base (.of q hasPlacement) surroundings (q .image) owner entry := by
  unfold base
  split
  · next name _ =>
    have hfetch : Warns clean (· = none) fun q => fetch .image (q .image) name "basedOn" .image := .fetch
    exact .dependOn hfetch
  · exact ofFile_warns ..
  · exact ofBackground_warns _

theorem addInsets_warns (entry : ImageEntry) (image : Image) :
    Warns clean (· = none) fun q => addInsets (.of q hasPlacement) owner entry image := by
  unfold addInsets
  split
  · exact .pure (by simp)
  · refine .bind (Metric.extractInsets_warns ..) fun read => ?_
    cases read with
    | none => exact .pure (by simp)
    | some read => exact .dependOn (.pure (by simp))

theorem addPlacement_warns (entry : ImageEntry) (image : Image) :
    Warns clean (· = none) fun q => addPlacement (.of q hasPlacement) owner entry image := by
  unfold addPlacement
  split
  · exact .pure (by simp)
  · next name _ =>
    by_cases h : hasPlacement name = true
    · simp only [References.of, h, if_true]
      exact .dependOn (.pure (by simp))
    · simp only [References.of, h]
      exact .reject rfl

theorem compute_warns (surroundings : Surroundings) (entry : ImageEntry) :
    Warns clean (· = none) fun q => compute (.of q hasPlacement) surroundings (q .image) owner entry := by
  refine .bind (base_warns ..) fun image => ?_
  cases image with
  | none => exact .pure (by simp)
  | some image =>
    refine .bind (addInsets_warns ..) fun image => ?_
    cases image with
    | none => exact .pure (by simp)
    | some image => exact addPlacement_warns ..

end ImageLayers

namespace ButtonLayers

/-- Errors of single elements are counted, and the count is reported whatever was said before. -/
theorem compute_warns (owner : String) (entry : ButtonStyleEntry) :
    Warns clean (· = none) fun q => compute (.of q) owner entry := by
  have counts {β : Type} {clean : Prop} {good : β → Prop} {f : Resolvers → Resolve β}
      (h : Inquires (fun _ => True) (fun a name => a = .buttonStyle ∧ name = owner) True good f) :
      Warns clean (fun _ => False) f := .of_inquires True h
  refine .bind (counts (states_inquires trivial trivial ⟨rfl, rfl⟩ _)) fun states => ?_
  refine .bind (counts (contentInsets_inquires trivial ⟨rfl, rfl⟩ _)) fun insets => ?_
  refine .bind (counts (@element_inquires _ _ _ owner .color trivial ⟨rfl, rfl⟩ ..)) fun tint => ?_
  dsimp only
  split
  · exact .pure (by simp)
  · exact .reject rfl

end ButtonLayers

/-! ### All computations -/

/-- An entry that stands for nothing without being wrong: a metric without text. -/
def Asset.IsBlank : (a : Asset) → a.kind.Entry → Prop
  | .metric, (expression : String) => expression = ""
  | _, _ => False

namespace Reading

variable (r : Reading) (q : Resolvers)

theorem compute_warns (a : Asset) (name : String) (entry : a.kind.Entry) (h : ¬ a.IsBlank entry) :
    Warns clean (· = none) fun q => r.compute q a name entry := by
  cases a with
  | metric => exact Metric.compute_warns name entry h
  | color => exact ColorText.compute_warns ..
  | font => exact FontLayers.compute_warns ..
  | textAttributes => exact TextLayers.compute_warns ..
  | image => exact ImageLayers.compute_warns ..
  | buttonStyle => exact ButtonLayers.compute_warns ..

theorem compute_blank (a : Asset) (name : String) (entry : a.kind.Entry) (h : a.IsBlank entry) :
    r.compute q a name entry = pure none := by
  cases a with
  | metric =>
    obtain rfl : entry = "" := h
    rfl
  | color => exact h.elim
  | font => exact h.elim
  | textAttributes => exact h.elim
  | image => exact h.elim
  | buttonStyle => exact h.elim

end Reading

end DesignTokens
