import DesignTokens.Proofs.Resolution.Cycle
import DesignTokens.Proofs.Resolution.Foundation

/-!
# Who asks for whom

Of its own asset an entry asks about what it refers to and nothing else, whatever it is told and however it ends.
So the names under way at any moment of a task form a chain of references that leads to the name asked for, and a
refusal because of a name under way means that there is a circle of references.

With this known, a property of states is maintained by all calls as soon as it is maintained by the few steps that
change a state (`Document.Maintains`): events, dependencies that are recorded, and results that are settled.

* `Reading.mem_references_of_asked` — questions about the own asset are references.
* `Document.Maintains.upholds` — what every step maintains holds in every state.
-/

namespace DesignTokens

open Resolve

variable {α β : Type}

/-- An inquiry that asks no questions but certain ones, whatever it is told. -/
def Inquiry.AsksOnly (P : Asset → String → Prop) : Inquiry α → Prop
  | .done _ => True
  | .fail _ => True
  | .note _ rest => rest.AsksOnly P
  | .use _ _ _ rest => rest.AsksOnly P
  | .ask a name next => P a name ∧ ∀ x, (next x).AsksOnly P

/-- A computation that asks no questions but certain ones. -/
def Asks (P : Asset → String → Prop) (f : Resolvers → Resolve α) : Prop :=
  ∃ t : Inquiry α, (∀ q, f q = t.run q) ∧ t.AsksOnly P

namespace Inquiry

variable {P : Asset → String → Prop}

theorem AsksOnly.bind {t : Inquiry α} {f : α → Inquiry β} (ht : t.AsksOnly P) (hf : ∀ x, (f x).AsksOnly P) :
    (t.bind f).AsksOnly P := by
  induction t with
  | done value => exact hf value
  | fail fault => trivial
  | note notice rest ih => exact ih ht
  | use a name dependencies rest ih => exact ih ht
  | ask a name next ih => exact ⟨ht.1, fun x => ih x (ht.2 x)⟩

theorem AsksOnly.asked {t : Inquiry α} (h : t.AsksOnly P) (o : Oracle) :
    ∀ question ∈ (t.examine o).asked, P question.1 question.2 := by
  induction t with
  | done value => simp [examine]
  | fail fault => simp [examine]
  | note notice rest ih => exact ih h
  | use a name dependencies rest ih => exact ih h
  | ask a name next ih =>
    intro question hq
    rcases List.mem_cons.mp hq with rfl | hq
    · exact h.1
    · exact ih _ (h.2 _) question hq

theorem Within.asksOnly {asks : Asset → Prop} {writes : Asset → String → Prop} {t : Inquiry α}
    (h : t.Within asks writes) (hP : ∀ a, asks a → ∀ name, P a name) : t.AsksOnly P := by
  induction t with
  | done value => trivial
  | fail fault => trivial
  | note notice rest ih => exact ih h
  | use a name dependencies rest ih => exact ih h.2
  | ask a name next ih => exact ⟨hP a h.1 name, fun x => ih x (h.2 x)⟩

/-- Inquiries that run alike ask the same questions. -/
theorem asked_congr {t t' : Inquiry α} (h : ∀ q, t.run q = t'.run q) (o : Oracle) :
    (t.examine o).asked = (t'.examine o).asked := by
  obtain ⟨p, hrun, hbegun⟩ := t.run_probe o {}
  obtain ⟨p', hrun', hbegun'⟩ := t'.run_probe o {}
  have hsame : p = p' := by
    rw [h, hrun'] at hrun
    cases hx : (t.examine o).result <;> cases hx' : (t'.examine o).result <;> simp_all [Findings.inState]
  rw [hsame, hbegun'] at hbegun
  simpa using hbegun.symm

end Inquiry

namespace Asks

variable {P : Asset → String → Prop} {asks : Asset → Prop} {writes : Asset → String → Prop}

theorem pure {value : α} : Asks P fun _ => pure value := ⟨.done value, fun _ => rfl, trivial⟩

theorem throw {fault : Fault} : Asks P fun _ => (throw fault : Resolve α) := ⟨.fail fault, fun _ => rfl, trivial⟩

theorem warn {notice : Notice} {f : Resolvers → Resolve α} (h : Asks P f) :
    Asks P (fun q => do Resolve.warn notice; f q) := by
  obtain ⟨t, hrun, honly⟩ := h
  exact ⟨.note notice t, fun q => by simp only [Inquiry.run, hrun], honly⟩

theorem reject {notice : Notice} : Asks P fun _ => (reject notice : Resolve (Option α)) := warn pure

theorem dependOn {a : Asset} {name : String} {dependencies : List Dependency} {f : Resolvers → Resolve α}
    (h : Asks P f) : Asks P (fun q => do Resolve.dependOn a name dependencies; f q) := by
  obtain ⟨t, hrun, honly⟩ := h
  exact ⟨.use a name dependencies t, fun q => by simp only [Inquiry.run, hrun], honly⟩

theorem answer {a : Asset} {name : String} {g : Answer a.Value → Resolvers → Resolve α} (ha : P a name)
    (h : ∀ x, Asks P (g x)) : Asks P (fun q => do g (← q.answer a name) q) := by
  choose next hrun honly using h
  exact ⟨.ask a name next, fun q => by simp only [Inquiry.run, hrun], ha, honly⟩

theorem bind {f : Resolvers → Resolve α} {g : α → Resolvers → Resolve β} (hf : Asks P f) (hg : ∀ x, Asks P (g x)) :
    Asks P (fun q => do g (← f q) q) := by
  obtain ⟨t, hrun, honly⟩ := hf
  choose next hrun' honly' using hg
  exact ⟨t.bind next, fun q => by simp only [Inquiry.run_bind, hrun, hrun'], honly.bind honly'⟩

theorem metric {name : String} {g : MetricLookup → Resolvers → Resolve α} (ha : P .metric name)
    (h : ∀ x : Answer Float, Asks P (g x.toMetric)) : Asks P (fun q => do g (← q.metric name) q) := by
  have hanswer := @answer α P .metric name (fun x => g x.toMetric) ha h
  simpa only [Resolvers.metric, bind_assoc, pure_bind] using hanswer

theorem color {name : String} {g : ColorText.Lookup → Resolvers → Resolve α} (ha : P .color name)
    (h : ∀ x : Answer Color, Asks P (g x.toColor)) : Asks P (fun q => do g (← q.color name) q) := by
  have hanswer := @answer α P .color name (fun x => g x.toColor) ha h
  simpa only [Resolvers.color, bind_assoc, pure_bind] using hanswer

theorem fetch {a : Asset} {name key : String} {user : Kind} (ha : P a name) :
    Asks P fun q => DesignTokens.fetch a (q a) name key user := by
  simp only [Resolvers.fetch_eq]
  refine answer ha fun x => ?_
  cases x with
  | missing => exact reject
  | invalid => exact reject
  | found value => exact pure

/-- A part that asks about certain assets only. -/
theorem of_inquires {good : α → Prop} {f : Resolvers → Resolve α} (before : Prop)
    (h : Inquires asks writes before good f) (hP : ∀ a, asks a → ∀ name, P a name) : Asks P f := by
  obtain ⟨t, hrun, hwithin, -⟩ := h
  exact ⟨t, hrun, hwithin.asksOnly hP⟩

end Asks

/-! ### Questions about the own asset -/

section Parts

variable {P : Asset → String → Prop}

namespace Metric

theorem namedValue_asks {name : String} (h : P .metric name) (expecting whole : String) :
    Asks P fun q => namedValue q.metric expecting name whole := by
  refine .metric h fun x => ?_
  cases x with
  | missing => exact .reject
  | invalid => exact .reject
  | found value => exact .pure

theorem conclude_asks (expecting whole : String) (requested : Option Int) (rest : List String) (read : Extraction) :
    Asks P fun _ => conclude expecting whole requested rest read := by
  unfold conclude
  split
  · exact .reject
  split
  · exact .reject
  split
  · exact .reject
  · exact .pure

theorem scan_asks (expecting : String) (ws : List String) (h : ∀ name ∈ names ws, P .metric name) (whole : String)
    (requested : Option Int) (read : Extraction) :
    Asks P fun q => scan q.metric expecting ws whole requested read := by
  induction ws generalizing whole requested read with
  | nil => exact conclude_asks ..
  | cons word rest ih =>
    simp only [names] at h
    simp only [scan]
    split
    · exact conclude_asks ..
    cases hfunction : MetricFunction.ofWord? word with
    | some function =>
      simp only [hfunction] at h ⊢
      split
      · exact .reject
      · refine .bind (ih h ..) fun args => ?_
        cases args with
        | none => exact .reject
        | some args =>
          dsimp only
          split
          · exact .reject
          · exact conclude_asks ..
    | none =>
      simp only [hfunction] at h ⊢
      by_cases hempty : word.isEmpty = true
      · simp only [hempty, if_true] at h ⊢
        exact ih h ..
      simp only [hempty, Bool.false_eq_true, if_false] at h ⊢
      by_cases hmark : word = "named"
      · simp only [hmark, if_true] at h ⊢
        split
        · exact .reject
        · next hrest =>
          simp only [hrest, Bool.false_eq_true, if_false] at h
          refine .bind (namedValue_asks (h _ (List.mem_singleton_self _)) ..) fun value => ?_
          cases value with
          | none => exact .pure
          | some value => exact conclude_asks ..
      simp only [hmark, if_false] at h ⊢
      cases hnumber : Number.Literal.number? word with
      | error fault => exact .throw
      | ok literal =>
        simp only [Resolve.lift, pure_bind]
        cases literal with
        | some value =>
          simp only [hnumber] at h
          exact ih h ..
        | none =>
          simp only [hnumber] at h
          refine .bind (namedValue_asks (h _ (List.mem_cons_self ..)) ..) fun value => ?_
          cases value with
          | none => exact .pure
          | some value => exact ih (fun name hname => h name (List.mem_cons_of_mem _ hname)) ..

theorem compute_asks (name expression : String)
    (h : ∀ other ∈ names (words (Text.withoutSpaces expression)), P .metric other) :
    Asks P fun q => compute q.metric name expression := by
  unfold compute
  split
  · exact .pure
  have hone : Asks P fun q => extractOne q.metric "extracting a metric" expression := by
    refine .bind (scan_asks _ _ h ..) fun read => ?_
    rcases read with _ | ⟨_ | ⟨value, values⟩, dependencies⟩
    · exact .pure
    · exact .pure
    · exact .pure
  refine .bind hone fun read => ?_
  rcases read with _ | ⟨value, dependencies⟩
  · exact .pure
  · exact .dependOn .pure

end Metric

/-- What asks about metrics alone. -/
theorem Asks.of_metrics {good : α → Prop} {f : Resolvers → Resolve α} (before : Prop) (hP : ∀ name, P .metric name)
    (h : Inquires (Eq .metric) (fun _ _ => True) before good f) : Asks P f :=
  .of_inquires before h fun _ ha name => ha ▸ hP name

theorem ColorText.compute_asks (hP : ∀ name, P .metric name) (isEntry : String → Bool) (owner raw : String)
    (h : ∀ name, Metric.words (Text.withoutSpaces raw) = ["named", name] → isEntry name = true → P .color name) :
    Asks P fun q => compute q.metric q.color isEntry owner raw := by
  unfold compute
  split
  · exact .reject
  next tag parts hwords =>
  split
  · exact .reject
  next format hformat =>
  split
  · exact .reject
  next hcount =>
  split
  · -- the tag is the name of its format, and there is one part
    obtain ⟨part, rfl⟩ := List.length_eq_one_iff.mp (not_not.mp hcount)
    obtain rfl : tag = "named" := by
      have hname := List.find?_some hformat
      exact (beq_iff_eq.mp hname).symm
    unfold named
    split
    · next hentry =>
      refine .dependOn (.color (h part hwords hentry) fun x => ?_)
      cases x with
      | missing => exact .reject
      | invalid => exact .reject
      | found color => exact .pure
    · split
      · exact .pure
      · exact .reject
  · refine .bind (.of_metrics True hP (webBytes_inquires ..)) fun bytes => ?_
    cases bytes with
    | none => exact .pure
    | some bytes => exact .of_metrics True hP (ofComponents_inquires ..)
  · refine .bind (.of_metrics True hP (Metric.extractEach_inquires rfl ..)) fun read => ?_
    cases read with
    | none => exact .pure
    | some read =>
      refine .dependOn (.bind (.of_metrics True hP (normalise_inquires ..)) fun components => ?_)
      cases components with
      | none => exact .pure
      | some components => exact .of_metrics True hP (ofComponents_inquires ..)

theorem FontLayers.compute_asks (hP : ∀ name, P .metric name) (catalog : Catalog) (owner : String)
    (entry : FontEntry) (h : ∀ base ∈ entry.basedOn.filter (!·.isEmpty), P .font base) :
    Asks P fun q => compute q.metric catalog (q .font) owner entry := by
  have hbase : Asks P fun q => baseDescriptor (q .font) owner entry := by
    unfold baseDescriptor
    split
    · exact .pure
    · next base hbase => exact .dependOn (.bind (.fetch (h base hbase)) fun font => .pure)
  refine .bind hbase fun base => ?_
  cases base with
  | none => exact .pure
  | some base =>
    refine .bind (.of_metrics True hP (addAttributes_inquires rfl owner trivial entry base)) fun declared => ?_
    cases declared with
    | none => exact .pure
    | some declared =>
      refine .bind (.of_metrics True hP (addSize_inquires rfl owner trivial entry _)) fun d => ?_
      cases d with
      | none => exact .pure
      | some d => exact .of_metrics True hP (realize_inquires ..)

/-- What asks about other assets alone. -/
theorem Asks.of_others {a : Asset} {good : α → Prop} {f : Resolvers → Resolve α} (before : Prop)
    (hP : ∀ b, b ≠ a → ∀ name, P b name) (h : Inquires (· ≠ a) (fun _ _ => True) before good f) : Asks P f :=
  .of_inquires before h hP

theorem TextLayers.compute_asks (hP : ∀ b, b ≠ .textAttributes → ∀ name, P b name) (owner : String)
    (entry : TextAttributesEntry) (h : ∀ base ∈ entry.basedOn.filter (!·.isEmpty), P .textAttributes base) :
    Asks P fun q => compute (.of q) (q .textAttributes) owner entry := by
  have hbase : Asks P fun q => baseDraft (q .textAttributes) owner entry := by
    unfold baseDraft
    split
    · exact .pure
    · next base hbase =>
      refine .dependOn (.bind (.fetch (h base hbase)) fun found => ?_)
      cases found with
      | none => exact .pure
      | some found => exact .pure
  exact .bind hbase fun base =>
    .of_others (True ∧ base.errors = 0) hP
      (readOver_inquires (by decide) (by decide) (by decide) owner trivial entry base)

theorem ImageLayers.compute_asks {hasPlacement : String → Bool} (hP : ∀ b, b ≠ .image → ∀ name, P b name)
    (surroundings : Surroundings) (owner : String) (entry : ImageEntry)
    (h : ∀ name, entry.source = .basedOn name → P .image name) :
    Asks P fun q => compute (.of q hasPlacement) surroundings (q .image) owner entry := by
  have hbase : Asks P fun q => base (.of q hasPlacement) surroundings (q .image) owner entry := by
    unfold base
    split
    · next name hsource =>
      have hfetch : Asks P fun q => fetch .image (q .image) name "basedOn" .image := .fetch (h name hsource)
      exact .dependOn hfetch
    · exact .of_others True hP (ofFile_inquires ..)
    · exact .of_others True hP (ofBackground_inquires (by decide) (by decide) trivial _)
  refine .bind hbase fun image => ?_
  cases image with
  | none => exact .pure
  | some image =>
    refine .bind (.of_others True hP (addInsets_inquires (by decide) trivial ..)) fun image => ?_
    cases image with
    | none => exact .pure
    | some image => exact .of_others True hP (addPlacement_inquires trivial ..)

end Parts

namespace Reading

variable {r : Reading} {a b : Asset} {underWay : List String} {name other : String} {entry : a.kind.Entry}
  {p p' : Progress}

theorem compute_asks (r : Reading) (a : Asset) (name : String) (entry : a.kind.Entry) :
    Asks (fun b other => b = a → other ∈ r.document.references a entry) fun q => r.compute q a name entry := by
  cases a with
  | metric => exact Metric.compute_asks name entry fun other hother _ => hother
  | color =>
    refine ColorText.compute_asks (by simp) _ name entry fun other hwords hentry _ => ?_
    simp only [Document.references]
    rw [hwords]
    simp [hentry]
  | font => exact FontLayers.compute_asks (by simp) _ name entry fun base hbase _ => Option.mem_toList.mpr hbase
  | textAttributes =>
    exact TextLayers.compute_asks (fun b hb _ h => absurd h hb) name entry
      fun base hbase _ => Option.mem_toList.mpr hbase
  | image =>
    refine ImageLayers.compute_asks (fun b hb _ h => absurd h hb) _ name entry fun other hsource _ => ?_
    simp only [Document.references, hsource, List.mem_singleton]
  | buttonStyle =>
    have h : Inquires (· ≠ .buttonStyle) (fun _ _ => True) True (fun x => True ∧ x.isSome = true)
        fun q => r.compute q .buttonStyle name entry :=
      ButtonLayers.compute_inquires (by decide) (by decide) (by decide) (by decide) trivial entry
    exact .of_others True (fun b hb _ h => absurd h hb) h

/-- Of its own asset, the inquiry of an entry asks about what the entry refers to. -/
theorem mem_references_of_asked {o : Oracle} (h : (a, other) ∈ ((r.plan a name entry).examine o).asked) :
    other ∈ r.document.references a entry := by
  obtain ⟨t, hrun, honly⟩ := r.compute_asks a name entry
  have hsame : ∀ q, (r.plan a name entry).run q = t.run q := fun q => (r.run_plan q a name entry).trans (hrun q)
  rw [Inquiry.asked_congr hsame] at h
  exact honly.asked o _ h rfl

/-! ### Names under way -/

/-- Every name under way leads to the one asked for by references. -/
def Linked (d : Document) (a : Asset) (underWay : List String) (name : String) : Prop :=
  ∀ other ∈ underWay, Relation.TransGen (d.Refers a) other name

theorem Partway.linked {rest : Answer b.Value → Inquiry (Option a.Value)} {asked : List (Asset × String)}
    {used : List Dependency} (h : r.Partway underWay name entry (.ask b other rest) p asked used)
    (hlinked : Linked r.document a underWay name) :
    Linked r.document b (inside a (name :: underWay) b) other := by
  by_cases hb : b = a
  · subst hb
    have hasked : (b, other) ∈ ((r.plan b name entry).examine (p.answers r.document)).asked := by
      rw [h.findings _ fun _ _ => rfl]
      simp [Inquiry.examine]
    have hrefers : r.document.Refers b name other := ⟨entry, h.present, mem_references_of_asked hasked⟩
    intro last hlast
    rw [inside_same] at hlast
    rcases List.mem_cons.mp hlast with rfl | hlast
    · exact .single hrefers
    · exact (hlinked last hlast).tail hrefers
  · intro last hlast
    simp [inside, hb] at hlast

end Reading

/-! ### What every step maintains -/

section Maintains

open Progress Reading

variable {d : Document} {within : Surroundings → Prop} {Q : Progress → Prop}

/-- A property of states that the steps of inquiries maintain, in founded states. -/
structure Document.Maintains (d : Document) (within : Surroundings → Prop) (Q : Progress → Prop) : Prop where
  start : Q {}
  record : ∀ (p : Progress) (e : Event), Q p → Q (p.record e)
  dependOn : ∀ (p : Progress) (a : Asset) (name : String) (dependencies : List Dependency),
    (p.cell a name).memo.isLoaded = false → Q p → Q (p.modify a name (·.dependOn dependencies))
  settle : ∀ (s : Surroundings) (p : Progress) (a : Asset) (underWay : List String) (name : String)
    (entry : a.kind.Entry) (result : Option a.Value) (asked : List (Asset × String)) (used : List Dependency),
    within s → p.Founded d within → Linked d a underWay name →
      Partway ⟨d, s⟩ underWay name entry (.done result) p asked used → Q p →
        Q (p.modify a name (·.settle (some a.invalid) result))

/-- A task leads from founded states with a property to such states. -/
def Reading.Carries (r : Reading) (within : Surroundings → Prop) (Q : Progress → Prop) {a : Asset} :
    Task a → Progress → Progress → Prop
  | .request underWay name, p, q => Linked r.document a underWay name →
    p.Founded r.document within ∧ Q p → q.Founded r.document within ∧ Q q
  | .inquiry underWay name rest, p, q => Linked r.document a underWay name → ∀ entry asked used,
    r.Partway underWay name entry rest p asked used →
      p.Founded r.document within ∧ Q p → q.Founded r.document within ∧ Q q

namespace Document.Maintains

variable {s : Surroundings} {a : Asset} {p p' : Progress}

theorem runs (hQ : d.Maintains within Q) (hs : within s) {task : Task a} {x : Option a.Value}
    (h : Runs ⟨d, s⟩ a task p (.ok x p')) : Carries ⟨d, s⟩ within Q task p p' := by
  generalize hresult : EStateM.Result.ok x p' = result at h
  induction h generalizing p' with
  | missing _ => cases hresult; exact fun _ => id
  | cached _ _ => cases hresult; exact fun _ => id
  | cyclic _ _ _ => cases hresult; exact fun _ hq => ⟨hq.1.record _, hQ.record _ _ hq.2⟩
  | @computed a underWay name p p₁ entry result hentry hmemo _ hrun ih =>
    cases hresult
    intro hlinked hq
    have hstart : Partway ⟨d, s⟩ underWay name entry _ _ [] [] := .start hentry hmemo
    obtain ⟨asked, used, hdone⟩ := hrun.partway hstart
    obtain ⟨hf, hq⟩ := ih rfl hlinked entry [] [] hstart ⟨hq.1.record _, hQ.record _ _ hq.2⟩
    exact ⟨hdone.settled hs hf,
      hQ.record _ _ (hQ.settle s p₁ a underWay name entry result asked used hs hf hlinked hdone hq)⟩
  | aborted _ _ _ _ _ => cases hresult
  | done => cases hresult; exact fun _ _ _ _ _ => id
  | fail => cases hresult
  | note _ ih =>
    exact fun hlinked entry asked used hpartway hq =>
      ih hresult hlinked entry asked used hpartway.noted ⟨hq.1.record _, hQ.record _ _ hq.2⟩
  | use _ ih =>
    exact fun hlinked entry asked used hpartway hq =>
      ih hresult hlinked entry asked _ hpartway.used
        ⟨hpartway.founded hq.1, hQ.dependOn _ _ _ _ hpartway.notLoaded hq.2⟩
  | ask hmay hasked _ ihasked ihrun =>
    intro hlinked entry asked used hpartway hq
    exact ihrun hresult hlinked entry _ used (hpartway.answered hmay hasked)
      (ihasked rfl (hpartway.linked hlinked) hq)
  | askAborted _ _ _ => cases hresult

theorem during (hQ : d.Maintains within Q) (hs : within s) {task : Task a} {q : Progress}
    (h : During ⟨d, s⟩ a task p q) : Carries ⟨d, s⟩ within Q task p q := by
  induction h with
  | @here a task p =>
    cases task with
    | request underWay name => exact fun _ => id
    | inquiry underWay name rest => exact fun _ _ _ _ _ => id
  | ended hrun => exact hQ.runs hs hrun
  | inside hentry hmemo _ _ ih =>
    exact fun hlinked hq => ih hlinked _ [] [] (.start hentry hmemo) ⟨hq.1.record _, hQ.record _ _ hq.2⟩
  | note _ ih =>
    exact fun hlinked entry asked used hpartway hq =>
      ih hlinked entry asked used hpartway.noted ⟨hq.1.record _, hQ.record _ _ hq.2⟩
  | use _ ih =>
    exact fun hlinked entry asked used hpartway hq =>
      ih hlinked entry asked _ hpartway.used ⟨hpartway.founded hq.1, hQ.dependOn _ _ _ _ hpartway.notLoaded hq.2⟩
  | asked _ _ ih => exact fun hlinked _ _ _ hpartway hq => ih (hpartway.linked hlinked) hq
  | answered hmay hasked _ ih =>
    intro hlinked entry asked used hpartway hq
    exact ih hlinked entry _ used (hpartway.answered hmay hasked)
      (hQ.runs hs hasked (hpartway.linked hlinked) hq)

/-- What every step maintains holds in every state of the document. -/
theorem upholds (hQ : d.Maintains within Q) : d.Upholds within fun p => p.Founded d within ∧ Q p where
  start := ⟨.start, hQ.start⟩
  notice p n hq := ⟨hq.1.record _, hQ.record p _ hq.2⟩
  during s a name p q hs hq hduring := hQ.during hs hduring (by simp [Linked]) hq

end Document.Maintains

/-- Invalid cells hold the sentinel. -/
def Progress.HoldsSentinels (p : Progress) : Prop :=
  ∀ a name value, (p.cell a name).memo = .invalid value → value = a.invalid

theorem Document.maintains_sentinels (d : Document) (within : Surroundings → Prop) :
    d.Maintains within Progress.HoldsSentinels where
  start a name value h := by
    rw [cell_start] at h
    cases h
  record _ _ h := h
  dependOn p a name dependencies _ h b last value hmemo := by
    rw [memo_dependOn] at hmemo
    exact h b last value hmemo
  settle s p a underWay name entry result asked used _ _ _ _ h b last value hmemo := by
    by_cases hown : b = a ∧ last = name
    · obtain ⟨rfl, rfl⟩ := hown
      rw [cell_modify_same] at hmemo
      cases result <;> cases hmemo
      rfl
    · rw [cell_modify_other _ _ hown] at hmemo
      exact h b last value hmemo

end Maintains

end DesignTokens
