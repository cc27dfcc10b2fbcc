import DesignTokens.Proofs.Resolution.Order

/-!
# What resolving an entry comes to

Between operations, an entry is resolved in one of three ways. It is valid and has the value of the meaning; or
it has no value there, and the sentinel is returned and kept; or its questions lead to a fault, which ends the
call. Whatever else a call has loaded then is as the meaning says too.

* `Usage.resolve_valid`, `Usage.resolve_invalid`, `Usage.resolve_fault` — the three ways.
* `Operation.performAll_memos` — what the meaning makes of loaded cells holds after every run of operations.
-/

namespace DesignTokens

open Resolve

namespace Usage

variable {u : Usage} {p' : Progress} {a b : Asset} {name other : String}

/-- After a request, what is loaded was loaded before or has got the value of the meaning. -/
theorem loaded_of_request (h : u.progress.Rests) {x : Option a.Value}
    (hrequest : u.reading.resolve? a name u.progress = .ok x p')
    (hloaded : (p'.cell b other).memo.isLoaded = true) :
    (u.progress.cell b other).memo.isLoaded = true ∧ p'.cell b other = u.progress.cell b other ∨
      ∃ entry, u.Pending b other entry ∧
        ∀ value, (p'.cell b other).memo = .valid value ↔ u.meaning b other = .found value := by
  have hexact := u.resolve?_exact h (.start h) a name
  rw [hrequest] at hexact
  rcases hexact.1.kept_or_final (h.requested hrequest).1.toOrderly hloaded with hkept | ⟨entry, hpending, hcell⟩
  · exact .inl hkept
  · refine .inr ⟨entry, hpending, fun value => ?_⟩
    rw [hcell, finalCell_eq_valid_iff]

/-- Where an entry is requested without fault, its cell answers as the meaning does. -/
theorem resolve_answer (h : u.progress.Rests) {entry : a.kind.Entry}
    (hentry : u.reading.document.entry? a.kind name = some entry) (hfaulty : ¬ u.Faulty a name) :
    ∃ value p', u.reading.resolve a name u.progress = .ok value p' ∧ p'.Rests ∧
      (p'.cell a name).memo.payload? = some value ∧
      Answer.of (some value) (p'.cell a name).memo = u.meaning a name := by
  have hexact := u.resolve?_exact h (.start h) a name
  cases hrequest : u.reading.resolve? a name u.progress with
  | error fault p' =>
    rw [hrequest] at hexact
    exact absurd ⟨fault, hexact⟩ hfaulty
  | ok x p' =>
    rw [hrequest] at hexact
    obtain ⟨-, -, hanswer⟩ := hexact
    cases x with
    | none => exact absurd hanswer.symm (meaning_ne_missing hentry)
    | some value =>
      exact ⟨value, p', bind_of_ok hrequest, (h.requested hrequest).1, Reading.resolve?_payload hrequest, hanswer⟩

theorem resolve_valid (h : u.progress.Rests) {value : a.Value} (hm : u.meaning a name = .found value) :
    ∃ p', u.reading.resolve a name u.progress = .ok value p' ∧ (p'.cell a name).memo = .valid value := by
  cases hentry : u.reading.document.entry? a.kind name with
  | none =>
    rw [meaning_missing hentry] at hm
    cases hm
  | some entry =>
    obtain ⟨x, p', hresolve, -, hpayload, hanswer⟩ := resolve_answer h hentry (not_faulty_of_isFound ⟨value, hm⟩)
    refine ⟨p', ?_⟩
    rw [hm] at hanswer
    cases hmemo : (p'.cell a name).memo <;> rw [hmemo] at hanswer hpayload <;> cases hanswer
    cases hpayload
    exact ⟨hresolve, rfl⟩

theorem resolve_fault (h : u.progress.Rests) (hfaulty : u.Faulty a name) :
    ∃ fault p', u.reading.resolve a name u.progress = .error fault p' ∧ u.LeadsTo a name fault := by
  have hexact := u.resolve?_exact h (.start h) a name
  cases hrequest : u.reading.resolve? a name u.progress with
  | ok x p' =>
    rw [hrequest] at hexact
    obtain ⟨hs, hmet, -⟩ := hexact
    exact absurd hfaulty (hs.not_faulty (h.requested hrequest).1.idle hmet)
  | error fault p' =>
    rw [hrequest] at hexact
    refine ⟨fault, p', ?_, hexact⟩
    simp only [Reading.resolve, bind, EStateM.bind, hrequest]

/-- A cell that is valid after its entry was resolved holds the value of the meaning. -/
theorem meaning_of_valid (h : u.progress.Rests) {entry : a.kind.Entry}
    (hentry : u.reading.document.entry? a.kind name = some entry) {x value : a.Value}
    (hresolve : u.reading.resolve a name u.progress = .ok x p')
    (hmemo : (p'.cell a name).memo = .valid value) : u.meaning a name = .found value := by
  have hfaulty : ¬ u.Faulty a name := by
    intro hfaulty
    obtain ⟨fault, p₁, herror, -⟩ := resolve_fault h hfaulty
    rw [hresolve] at herror
    cases herror
  obtain ⟨y, p₁, hresolve₁, -, -, hanswer⟩ := resolve_answer h hentry hfaulty
  rw [hresolve] at hresolve₁
  cases hresolve₁
  rw [← hanswer, hmemo]
  rfl

end Usage

/-! ### Loaded cells after operations -/

section Memos

variable {d : Document} {good : (a : Asset) → String → Memo a.Value → Prop}

/-- Every loaded cell is good for its entry. -/
def Progress.AllLoaded (p : Progress) (good : (a : Asset) → String → Memo a.Value → Prop) : Prop :=
  ∀ a name, (p.cell a name).memo.isLoaded = true → good a name (p.cell a name).memo

/-- Cells whose loaded memos are good get nothing but good memos, if those that the meaning gives are good. -/
theorem Document.preserves_memos
    (h : ∀ u : Usage, u.reading.document = d → u.progress.AllLoaded good → ∀ a name memo,
      (∀ value, memo = .valid value ↔ u.meaning a name = .found value) → good a name memo) :
    d.Preserves fun p => p.Rests ∧ p.AllLoaded good where
  notice p n hq := ⟨hq.1.noticed n, hq.2⟩
  request r a name p p' x hd hq hrequest := by
    obtain ⟨hrests, hgood⟩ := hq
    refine ⟨(hrests.requested hrequest).1, fun b other hloaded => ?_⟩
    rcases Usage.loaded_of_request (u := ⟨r, p⟩) hrests hrequest hloaded with ⟨hbefore, hcell⟩ | ⟨_, -, hmemo⟩
    · rw [hcell]
      exact hgood b other hbefore
    · exact h ⟨r, p⟩ hd hgood b other _ hmemo

theorem Operation.performAll_memos {reading : Reading} {operations : List Operation} {u : Usage}
    (hrun : performAll { reading } operations = .ok u)
    (h : ∀ u : Usage, u.reading.document = reading.document → u.progress.AllLoaded good → ∀ a name memo,
      (∀ value, memo = .valid value ↔ u.meaning a name = .found value) → good a name memo) :
    u.reading.document = reading.document ∧ u.progress.Rests ∧ u.progress.AllLoaded good := by
  refine performAll_preserves (Document.preserves_memos h) rfl hrun ⟨.start, fun a name hloaded => ?_⟩
  rw [Progress.cell_start] at hloaded
  cases hloaded

end Memos

end DesignTokens
