import DesignTokens.Proofs.Resolution.Past
import DesignTokens.Proofs.Resolution.Probe

/-!
# Documents side by side

Two documents that differ in few entries are resolved side by side. Where the computations of an entry in the one and
in the other ask the same, and come to related values as long as they are told related ones, whatever is resolved in
the two is related: both are valid with related values, or both are invalid, or both end in the same fault. Only the
assets in scope need to be looked at, that is those that the entries may ask about.

`Resolve.Matches` is what has to be shown of two computations, part by part.

* `Resolve.Matches.bind`, `Resolve.Matches.of_inquires` — matching parts.
* `Reading.Mirrors` — two documents whose computations match.
* `Reading.Mirrors.meaning`, `Reading.Mirrors.leadsTo` — their meanings and faults.
* `Reading.Mirrors.resolve` — what calls for an entry come to in the two.
-/

namespace DesignTokens

open Resolve

variable {α α' β β' γ : Type}

/-! ### Computations side by side -/

/-- Two results are related values or the same fault, and the same computations have begun. -/
inductive Resolve.SameOutcome (R : α → β → Prop) :
    EStateM.Result Fault Progress α → EStateM.Result Fault Progress β → Prop where
  | ok {x : α} {y : β} {p q : Progress} (hvalue : R x y) (hbegun : p.begun = q.begun) :
      SameOutcome R (.ok x p) (.ok y q)
  | error {fault : Fault} {p q : Progress} (hbegun : p.begun = q.begun) :
      SameOutcome R (.error fault p) (.error fault q)

/-- Two computations ask the same and come to related values or the same fault. -/
def Resolve.Matches (R : α → β → Prop) (f : Resolve α) (g : Resolve β) : Prop :=
  ∀ p q, p.begun = q.begun → SameOutcome R (f p) (g q)

/-- Two answers are of the same sort, and values that they give are related. -/
inductive Answer.Matches (R : α → β → Prop) : Answer α → Answer β → Prop where
  | missing : Matches R .missing .missing
  | invalid : Matches R .invalid .invalid
  | found {x : α} {y : β} (h : R x y) : Matches R (.found x) (.found y)

namespace Answer.Matches

variable {R : α → β → Prop} {x : Answer α} {y : Answer β}

theorem symm (h : x.Matches R y) : y.Matches (flip R) x := by
  cases h with
  | missing => exact .missing
  | invalid => exact .invalid
  | found h => exact .found h

theorem eq_of_eq {S : α → α → Prop} {x y : Answer α} (h : x.Matches S y) (heq : ∀ a b, S a b → a = b) : x = y := by
  cases h with
  | missing => rfl
  | invalid => rfl
  | found h => rw [heq _ _ h]

end Answer.Matches

namespace Resolve.Matches

variable {R S : α → β → Prop} {f : Resolve α} {g : Resolve β}

theorem pure {x : α} {y : β} (h : R x y) : Matches R (pure x) (pure y) := fun _ _ hbegun => .ok h hbegun

theorem throw {fault : Fault} : Matches R (throw fault) (throw fault) := fun _ _ hbegun => .error hbegun

theorem bind {T : α' → β' → Prop} {next : α → Resolve α'} {next' : β → Resolve β'} (h : Matches R f g)
    (hnext : ∀ x y, R x y → Matches T (next x) (next' y)) : Matches T (f >>= next) (g >>= next') := by
  intro p q hbegun
  have hsame := h p q hbegun
  simp only [Bind.bind, EStateM.bind]
  generalize f p = result, g q = result' at hsame
  cases hsame with
  | ok hvalue hbegun' => exact hnext _ _ hvalue _ _ hbegun'
  | error hbegun' => exact .error hbegun'

theorem mono (h : Matches R f g) (hmono : ∀ x y, R x y → S x y) : Matches S f g := by
  intro p q hbegun
  have hsame := h p q hbegun
  generalize f p = result, g q = result' at hsame
  cases hsame with
  | ok hvalue hbegun' => exact .ok (hmono _ _ hvalue) hbegun'
  | error hbegun' => exact .error hbegun'

theorem symm (h : Matches R f g) : Matches (flip R) g f := by
  intro p q hbegun
  have hsame := h q p hbegun.symm
  generalize f q = result, g p = result' at hsame
  cases hsame with
  | ok hvalue hbegun' => exact .ok hvalue hbegun'.symm
  | error hbegun' => exact .error hbegun'.symm

theorem trans {T : β → γ → Prop} {k : Resolve γ} (h : Matches R f g) (h' : Matches T g k) :
    Matches (fun x z => ∃ y, R x y ∧ T y z) f k := by
  intro p q hbegun
  have hfirst := h p p rfl
  have hsecond := h' p q hbegun
  generalize f p = result, g p = between, k q = result' at hfirst hsecond
  cases hfirst with
  | ok hvalue hbegun' =>
    cases hsecond with
    | ok hvalue' hbegun'' => exact .ok ⟨_, hvalue, hvalue'⟩ (hbegun'.trans hbegun'')
  | error hbegun' =>
    cases hsecond with
    | error hbegun'' => exact .error (hbegun'.trans hbegun'')

/-- The first value is known to be one that the first computation comes to. -/
theorem sound {good : α → Prop} (h : Matches R f g) (hgood : ∀ p x p', f p = .ok x p' → good x) :
    Matches (fun x y => R x y ∧ good x) f g := by
  intro p q hbegun
  generalize hf : f p = result
  generalize hg : g q = result'
  have hsame := h p q hbegun
  rw [hf, hg] at hsame
  cases hsame with
  | ok hvalue hbegun' => exact .ok ⟨hvalue, hgood _ _ _ hf⟩ hbegun'
  | error hbegun' => exact .error hbegun'

theorem reject {R : α → β → Prop} (n n' : Notice) : Matches (Option.Rel R) (reject n) (reject n') :=
  fun _ _ hbegun => .ok .none hbegun

theorem lift (e : Except Fault α) : Matches Eq (lift e) (lift e) := by
  cases e with
  | ok x => exact pure rfl
  | error fault => exact throw

/-- Dependencies are recorded beside. -/
theorem dependOn {a b : Asset} {name other : String} {dependencies others : List Dependency} (h : Matches R f g) :
    Matches R (do Resolve.dependOn a name dependencies; f) (do Resolve.dependOn b other others; g) :=
  fun _ _ hbegun => h _ _ hbegun

section Tables

variable {o o' : Oracle}

/-- A computation that asks about assets on which two tables agree takes the same course with both. -/
theorem of_inquires {asks : Asset → Prop} {writes : Asset → String → Prop} {before : Prop} {good : α → Prop}
    {F : Resolvers → Resolve α} (h : Inquires asks writes before good F) (hsame : ∀ a, asks a → o' a = o a) :
    Matches Eq (F (.probe o)) (F (.probe o')) := by
  obtain ⟨t, hrun, hwithin, -⟩ := h
  have hexamine : t.examine o' = t.examine o :=
    Inquiry.examine_congr t fun question hq => congrFun (hsame _ (hwithin.asked o question hq)) _
  intro p q hbegun
  obtain ⟨p', hp, hpbegun⟩ := t.run_probe o p
  obtain ⟨q', hq, hqbegun⟩ := t.run_probe o' q
  have hsameBegun : p'.begun = q'.begun := by rw [hpbegun, hqbegun, hexamine, hbegun]
  rw [hrun, hrun, hp, hq, hexamine]
  unfold Findings.inState
  cases (t.examine o).result with
  | ok x => exact .ok rfl hsameBegun
  | error fault => exact .error hsameBegun

variable {a : Asset} {name : String} {R : a.Value → a.Value → Prop}

theorem fetch (h : (o a name).Matches R (o' a name)) (key key' : String) (user user' : Kind) :
    Matches (Option.Rel R) (DesignTokens.fetch a (Resolvers.probe o a) name key user)
      (DesignTokens.fetch a (Resolvers.probe o' a) name key' user') := by
  rw [Resolvers.fetch_eq, Resolvers.fetch_eq]
  have hanswer : Matches (Answer.Matches R) ((Resolvers.probe o).answer a name)
      ((Resolvers.probe o').answer a name) := by
    intro p q hbegun
    obtain ⟨p', hp, hpbegun⟩ := Resolvers.answer_probe o a name p
    obtain ⟨q', hq, hqbegun⟩ := Resolvers.answer_probe o' a name q
    rw [hp, hq]
    exact .ok h (by rw [hpbegun, hqbegun, hbegun])
  refine hanswer.bind fun x y hxy => ?_
  cases hxy with
  | missing => exact reject _ _
  | invalid => exact reject _ _
  | found h => exact pure (.some h)

end Tables

end Resolve.Matches

/-! ### Readings side by side -/

namespace Reading

variable {r r' : Reading} {scope : Asset → Prop} {R : (a : Asset) → String → a.Value → a.Value → Prop}

/-- Two tables answer alike about the assets in scope. -/
def Agree (scope : Asset → Prop) (R : (a : Asset) → String → a.Value → a.Value → Prop) (o o' : Oracle) : Prop :=
  ∀ a name, scope a → (o a name).Matches (R a name) (o' a name)

/-- Two documents have the same names in scope, and the computations of an entry match if the answers do. -/
structure Mirrors (r r' : Reading) (scope : Asset → Prop) (R : (a : Asset) → String → a.Value → a.Value → Prop) :
    Prop where
  closed : ∀ a b, scope a → a.MayAsk b → scope b
  present : ∀ a name, scope a →
    (r.document.entry? a.kind name = none ↔ r'.document.entry? a.kind name = none)
  compute : ∀ a name entry entry' o o', scope a → r.document.entry? a.kind name = some entry →
    r'.document.entry? a.kind name = some entry' → Agree scope R o o' →
    Matches (Option.Rel (R a name)) (r.compute (.probe o) a name entry) (r'.compute (.probe o') a name entry')

namespace Mirrors

variable {a : Asset} {name : String} {entry entry' : a.kind.Entry} {o o' : Oracle}

theorem symm (h : r.Mirrors r' scope R) : r'.Mirrors r scope fun a name => flip (R a name) where
  closed := h.closed
  present a name ha := (h.present a name ha).symm
  compute a name entry entry' o o' ha hentry hentry' ho := by
    refine (h.compute a name entry' entry o' o ha hentry' hentry fun b other hb => (ho b other hb).symm).symm.mono ?_
    intro x y hxy
    cases hxy with
    | some h => exact .some h
    | none => exact .none

theorem exists_entry (h : r.Mirrors r' scope R) (ha : scope a)
    (hentry : r.document.entry? a.kind name = some entry) :
    ∃ entry', r'.document.entry? a.kind name = some entry' := by
  refine Option.ne_none_iff_exists'.mp fun hnone => ?_
  rw [(h.present a name ha).mpr hnone] at hentry
  cases hentry

/-- What the inquiries of an entry find. -/
theorem examine (h : r.Mirrors r' scope R) (ha : scope a) (hentry : r.document.entry? a.kind name = some entry)
    (hentry' : r'.document.entry? a.kind name = some entry') (ho : Agree scope R o o') :
    ((r.plan a name entry).examine o).asked = ((r'.plan a name entry').examine o').asked ∧
      ((∃ x y, ((r.plan a name entry).examine o).result = .ok x ∧
          ((r'.plan a name entry').examine o').result = .ok y ∧ Option.Rel (R a name) x y) ∨
        ∃ fault, ((r.plan a name entry).examine o).result = .error fault ∧
          ((r'.plan a name entry').examine o').result = .error fault) := by
  obtain ⟨p, hrun, hbegun⟩ := r.compute_probe o a name entry {}
  obtain ⟨p', hrun', hbegun'⟩ := r'.compute_probe o' a name entry' {}
  -- a computation that answers from a table records its questions, so that it tells what the inquiry asked
  have hsame := h.compute a name entry entry' o o' ha hentry hentry' ho {} {} rfl
  rw [hrun, hrun'] at hsame
  have hasked (hpp : p.begun = p'.begun) :
      ((r.plan a name entry).examine o).asked = ((r'.plan a name entry').examine o').asked := by
    rw [hbegun, hbegun'] at hpp
    exact List.reverse_inj.mp (List.append_cancel_right hpp)
  unfold Findings.inState at hsame
  cases hresult : ((r.plan a name entry).examine o).result <;>
    cases hresult' : ((r'.plan a name entry').examine o').result <;>
    rw [hresult, hresult'] at hsame <;> cases hsame
  · next hpp => exact ⟨hasked hpp, .inr ⟨_, rfl, rfl⟩⟩
  · next hvalue hpp => exact ⟨hasked hpp, .inl ⟨_, _, rfl, rfl, hvalue⟩⟩

/-! ### Meanings -/

/-- In a fresh document every entry is pending. -/
theorem pending (hentry : r.document.entry? a.kind name = some entry) :
    Usage.Pending { reading := r } a name entry := ⟨hentry, by rw [Progress.cell_start]; rfl⟩

theorem outcome (h : r.Mirrors r' scope R) (ha : scope a) (hentry : r.document.entry? a.kind name = some entry)
    (hentry' : r'.document.entry? a.kind name = some entry') (ho : Agree scope R o o') :
    (Usage.outcome (r.plan a name entry) o).Matches (R a name) (Usage.outcome (r'.plan a name entry') o') := by
  obtain ⟨-, ⟨x, y, hresult, hresult', hvalue⟩ | ⟨fault, hresult, hresult'⟩⟩ := h.examine ha hentry hentry' ho
  · unfold Usage.outcome
    rw [hresult, hresult']
    cases hvalue with
    | some hvalue => exact .found hvalue
    | none => exact .invalid
  · unfold Usage.outcome
    rw [hresult, hresult']
    exact .invalid

/-- At every stage the answers are alike. -/
theorem stage (h : r.Mirrors r' scope R) (k : Nat) :
    Agree scope R (Usage.stage { reading := r } k) (Usage.stage { reading := r' } k) := by
  induction k with
  | zero =>
    intro a name ha
    cases hentry : r.document.entry? a.kind name with
    | none =>
      rw [Usage.stage_missing hentry, Usage.stage_missing ((h.present a name ha).mp hentry)]
      exact .missing
    | some entry =>
      obtain ⟨entry', hentry'⟩ := h.exists_entry ha hentry
      rw [(pending hentry).stage_zero, (pending hentry').stage_zero]
      exact .invalid
  | succ k ih =>
    intro a name ha
    cases hentry : r.document.entry? a.kind name with
    | none =>
      rw [Usage.stage_missing hentry, Usage.stage_missing ((h.present a name ha).mp hentry)]
      exact .missing
    | some entry =>
      obtain ⟨entry', hentry'⟩ := h.exists_entry ha hentry
      rw [(pending hentry).stage_succ, (pending hentry').stage_succ]
      exact h.outcome ha hentry hentry' ih

theorem meaning_found (h : r.Mirrors r' scope R) (ha : scope a) {value : a.Value}
    (hfound : Usage.meaning { reading := r } a name = .found value) :
    ∃ value', Usage.meaning { reading := r' } a name = .found value' ∧ R a name value value' := by
  obtain ⟨k, hk⟩ := Usage.exists_stage_of_meaning hfound
  have hstage := h.stage k a name ha
  rw [hk] at hstage
  generalize hk' : Usage.stage { reading := r' } k a name = answer at hstage
  cases hstage with
  | found hvalue => exact ⟨_, Usage.meaning_eq_of_stage hk', hvalue⟩

theorem meaning (h : r.Mirrors r' scope R) :
    Agree scope R (Usage.meaning { reading := r }) (Usage.meaning { reading := r' }) := by
  intro a name ha
  cases hentry : r.document.entry? a.kind name with
  | none =>
    rw [Usage.meaning_missing hentry, Usage.meaning_missing ((h.present a name ha).mp hentry)]
    exact .missing
  | some entry =>
    rcases Usage.meaning_present (u := { reading := r }) hentry with hinvalid | ⟨value, hfound⟩
    · -- were there a value on the other side, there would be one on this side by symmetry
      obtain ⟨entry', hentry'⟩ := h.exists_entry ha hentry
      rcases Usage.meaning_present (u := { reading := r' }) hentry' with hinvalid' | ⟨value', hfound'⟩
      · rw [hinvalid, hinvalid']
        exact .invalid
      · obtain ⟨value, hfound, -⟩ := h.symm.meaning_found ha hfound'
        rw [hinvalid] at hfound
        cases hfound
    · obtain ⟨value', hfound', hvalue⟩ := h.meaning_found ha hfound
      rw [hfound, hfound']
      exact .found hvalue

/-! ### Faults -/

/-- A question in scope is a pending entry in both documents, and leads on to the same questions. -/
theorem asks (h : r.Mirrors r' scope R) {question other : Asset × String} (hscope : scope question.1)
    (hasks : Usage.Asks { reading := r } question other) :
    Usage.Asks { reading := r' } question other ∧ scope other.1 := by
  obtain ⟨entry, hpending, hmem⟩ := hasks
  have hother : scope other.1 :=
    h.closed _ _ hscope ((r.plan_within question.1 question.2 entry).asked _ other hmem)
  obtain ⟨entry', hentry'⟩ := h.exists_entry hscope hpending.present
  have hasked := (h.examine hscope hpending.present hentry' h.meaning).1
  exact ⟨⟨entry', pending hentry', hasked ▸ hmem⟩, hother⟩

theorem breaks (h : r.Mirrors r' scope R) {question : Asset × String} {fault : Fault} (hscope : scope question.1)
    (hbreaks : Usage.Breaks { reading := r } question fault) : Usage.Breaks { reading := r' } question fault := by
  obtain ⟨entry, hpending, hresult⟩ := hbreaks
  obtain ⟨entry', hentry'⟩ := h.exists_entry hscope hpending.present
  obtain ⟨-, ⟨x, y, hok, -, -⟩ | ⟨fault', hfault, hfault'⟩⟩ := h.examine hscope hpending.present hentry' h.meaning
  · rw [hok] at hresult
    cases hresult
  · obtain rfl : fault' = fault := Except.error.inj (hfault.symm.trans hresult)
    exact ⟨entry', pending hentry', hfault'⟩

theorem leadsTo (h : r.Mirrors r' scope R) (ha : scope a) {fault : Fault}
    (hleads : Usage.LeadsTo { reading := r } a name fault) : Usage.LeadsTo { reading := r' } a name fault := by
  obtain ⟨last, hpath, hbreaks⟩ := hleads
  have hpath' : Relation.ReflTransGen (Usage.Asks { reading := r' }) (a, name) last ∧ scope last.1 := by
    clear hbreaks
    induction hpath with
    | refl => exact ⟨.refl, ha⟩
    | tail _ hstep ih =>
      obtain ⟨hstep', hscope⟩ := h.asks ih.2 hstep
      exact ⟨ih.1.tail hstep', hscope⟩
  exact ⟨last, hpath'.1, h.breaks hpath'.2 hbreaks⟩

theorem faulty_iff (h : r.Mirrors r' scope R) (ha : scope a) :
    Usage.Faulty { reading := r } a name ↔ Usage.Faulty { reading := r' } a name := by
  constructor
  · rintro ⟨fault, hleads⟩
    exact ⟨fault, h.leadsTo ha hleads⟩
  · rintro ⟨fault, hleads⟩
    exact ⟨fault, h.symm.leadsTo ha hleads⟩

end Mirrors

/-! ### Calls -/

section Calls

variable {a : Asset} {name : String} {entry : a.kind.Entry} {p p' : Progress}

/-- What a call comes to in cells that can be trusted. -/
theorem Trusts.resolve (h : r.Trusts p) (hentry : r.document.entry? a.kind name = some entry) :
    (∃ fault q, r.resolve a name p = .error fault q ∧ Usage.Faulty { reading := r } a name) ∨
      ∃ value q, r.resolve a name p = .ok value q ∧ ¬ Usage.Faulty { reading := r } a name ∧
        (Usage.meaning { reading := r } a name = .found value ∧ (q.cell a name).memo = .valid value ∨
          Usage.meaning { reading := r } a name = .invalid ∧ (q.cell a name).memo = .invalid value ∧
            value = a.invalid) := by
  obtain ⟨past, hrests, hsound⟩ := h
  have hexact := Usage.resolve?_exact (u := { reading := r }) hrests hsound a name
  have hafter := resolve?_after r a name p past
  cases hrequest : r.resolve? a name p with
  | error fault q =>
    rw [hafter, hrequest] at hexact
    refine .inl ⟨fault, q, ?_, fault, hexact⟩
    simp only [Reading.resolve, bind, EStateM.bind, hrequest]
  | ok x q =>
    rw [hrequest] at hafter
    rw [hafter] at hexact
    obtain ⟨hsound', hmet, hanswer⟩ := hexact
    have hrests' : (q.after past).Rests := (hrests.requested hafter).1
    cases x with
    | none => exact absurd hanswer.symm (Usage.meaning_ne_missing hentry)
    | some value =>
      refine .inr ⟨value, q, bind_of_ok hrequest, hsound'.not_faulty hrests'.idle hmet, ?_⟩
      have hpayload : (q.cell a name).memo.payload? = some value := Reading.resolve?_payload hrequest
      have hanswer' : Answer.of (some value) (q.cell a name).memo = Usage.meaning { reading := r } a name := hanswer
      rw [← hanswer']
      cases hmemo : (q.cell a name).memo with
      | empty =>
        rw [hmemo] at hpayload
        cases hpayload
      | valid found =>
        rw [hmemo] at hpayload
        cases hpayload
        exact .inl ⟨rfl, rfl⟩
      | invalid sentinel =>
        rw [hmemo] at hpayload
        cases hpayload
        exact .inr ⟨rfl, rfl, hrests'.sentinel a name value hmemo⟩

/-- Calls for an entry in the two documents both end in a fault, or both return, and then the values are valid and
related, or both are the sentinel. -/
theorem Mirrors.resolve (h : r.Mirrors r' scope R) (hp : r.Trusts p) (hp' : r'.Trusts p') (ha : scope a)
    (hentry : (r.document.entry? a.kind name).isSome = true) :
    (∃ fault q fault' q', r.resolve a name p = .error fault q ∧ r'.resolve a name p' = .error fault' q') ∨
      ∃ value q value' q', r.resolve a name p = .ok value q ∧ r'.resolve a name p' = .ok value' q' ∧
        ((q.cell a name).memo = .valid value ∧ (q'.cell a name).memo = .valid value' ∧ R a name value value' ∨
          (q.cell a name).memo = .invalid a.invalid ∧ (q'.cell a name).memo = .invalid a.invalid ∧
            value = a.invalid ∧ value' = a.invalid) := by
  obtain ⟨entry, hentry⟩ := Option.isSome_iff_exists.mp hentry
  obtain ⟨entry', hentry'⟩ := h.exists_entry ha hentry
  have hmeaning := h.meaning a name ha
  rcases hp.resolve hentry with ⟨fault, q, hfault, hfaulty⟩ | ⟨value, q, hreturn, hfaulty, hcell⟩ <;>
    rcases hp'.resolve hentry' with ⟨fault', q', hfault', hfaulty'⟩ | ⟨value', q', hreturn', hfaulty', hcell'⟩
  · exact .inl ⟨fault, q, fault', q', hfault, hfault'⟩
  · exact absurd ((h.faulty_iff ha).mp hfaulty) hfaulty'
  · exact absurd ((h.faulty_iff ha).mpr hfaulty') hfaulty
  · refine .inr ⟨value, q, value', q', hreturn, hreturn', ?_⟩
    rcases hcell with ⟨hfound, hvalid⟩ | ⟨hnone, hinvalid, rfl⟩ <;>
      rcases hcell' with ⟨hfound', hvalid'⟩ | ⟨hnone', hinvalid', rfl⟩
    · rw [hfound, hfound'] at hmeaning
      cases hmeaning with
      | found hvalue => exact .inl ⟨hvalid, hvalid', hvalue⟩
    · rw [hfound, hnone'] at hmeaning
      cases hmeaning
    · rw [hnone, hfound'] at hmeaning
      cases hmeaning
    · exact .inr ⟨hinvalid, hinvalid', rfl, rfl⟩

/-- After calls without faults the cells can be trusted. -/
theorem Trusts.of_calls {calls : List Call} (h : Call.runAll r calls {} = .ok () p) : r.Trusts p :=
  (Trusts.start r).reaches ((Call.runAll_requests r calls).ok h)

end Calls

end Reading

end DesignTokens
