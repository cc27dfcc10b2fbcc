import DesignTokens.Proofs.Resolution.Calls

/-!
# What a document in use means

The value of an entry is found in stages. At first no entry has a value but those whose cells hold one from
earlier calls; at each further stage an entry whose cell is not loaded has one if the inquiry that computes it
finds one with the answers of the stage before. What is found stays found with the same value
(`Usage.stage_mono`), because an inquiry has a good outcome only if everything it asked about was found. The
meaning takes all stages together. It writes to no cell and knows no order of requests, and before the first
call it does not mention cells at all.

* `Usage.meaning_eq_found_iff` — the meaning gives an entry that is pending the value that its inquiry finds in
  the meaning.
* `Usage.Needs.not_found` — an entry that needs itself has no value.
-/

namespace DesignTokens

namespace Usage

variable {u : Usage} {a b : Asset} {name other : String} {entry : a.kind.Entry} {value : a.Value}

/-- The value that an inquiry finds when its answers are known, if it finds one. -/
def outcome (t : Inquiry (Option a.Value)) (o : Oracle) : Answer a.Value :=
  match (t.examine o).result with
  | .ok (some value) => .found value
  | _ => .invalid

theorem outcome_eq_found_iff {t : Inquiry (Option a.Value)} {o : Oracle} :
    outcome t o = .found value ↔ (t.examine o).result = .ok (some value) := by
  unfold outcome
  split
  · next v h => simp [h]
  · next h => simpa using h value

/-- What the cell of an entry answers. -/
def kept (u : Usage) (a : Asset) (name : String) : Answer a.Value :=
  .of (some a.invalid) (u.progress.cell a name).memo

theorem kept_eq_found_iff : u.kept a name = .found value ↔ (u.progress.cell a name).memo = .valid value := by
  unfold kept
  cases (u.progress.cell a name).memo <;> simp [Answer.of, Memo.value?]

theorem kept_eq_invalid (h : ∀ value, (u.progress.cell a name).memo ≠ .valid value) :
    u.kept a name = .invalid := by
  unfold kept
  cases hmemo : (u.progress.cell a name).memo with
  | valid value => exact absurd hmemo (h value)
  | _ => rfl

/-- An entry of the document whose cell is not loaded. -/
structure Pending (u : Usage) (a : Asset) (name : String) (entry : a.kind.Entry) : Prop where
  present : u.reading.document.entry? a.kind name = some entry
  notLoaded : (u.progress.cell a name).memo.isLoaded = false

theorem Pending.unique {entry' : a.kind.Entry} (h : u.Pending a name entry) (h' : u.Pending a name entry') :
    entry = entry' := Option.some.inj (h.present.symm.trans h'.present)

/-- The answers at a stage. -/
noncomputable def stage (u : Usage) : Nat → Oracle
  | 0 => fun a name =>
    match u.reading.document.entry? a.kind name with
    | none => .missing
    | some _ => u.kept a name
  | k + 1 => fun a name =>
    match u.reading.document.entry? a.kind name with
    | none => .missing
    | some entry =>
      if (u.progress.cell a name).memo.isLoaded then u.kept a name
      else outcome (u.reading.plan a name entry) (u.stage k)

theorem stage_missing (h : u.reading.document.entry? a.kind name = none) (k : Nat) :
    u.stage k a name = .missing := by
  cases k <;> simp only [stage, h]

theorem stage_loaded (hentry : u.reading.document.entry? a.kind name = some entry)
    (hloaded : (u.progress.cell a name).memo.isLoaded = true) (k : Nat) : u.stage k a name = u.kept a name := by
  cases k with
  | zero => simp only [stage, hentry]
  | succ k => simp only [stage, hentry, hloaded, if_true]

theorem Pending.stage_zero (h : u.Pending a name entry) : u.stage 0 a name = .invalid := by
  have hinvalid : u.kept a name = .invalid := by
    refine kept_eq_invalid fun value hvalue => ?_
    have hloaded := h.notLoaded
    rw [hvalue] at hloaded
    cases hloaded
  simp only [stage, h.present, hinvalid]

theorem Pending.stage_succ (h : u.Pending a name entry) (k : Nat) :
    u.stage (k + 1) a name = outcome (u.reading.plan a name entry) (u.stage k) := by
  simp only [stage, h.present, h.notLoaded, Bool.false_eq_true, if_false]

/-- An entry of the document has a loaded cell or is pending. -/
theorem loaded_or_pending (hentry : u.reading.document.entry? a.kind name = some entry) :
    (u.progress.cell a name).memo.isLoaded = true ∨ u.Pending a name entry := by
  cases hloaded : (u.progress.cell a name).memo.isLoaded with
  | true => exact .inl rfl
  | false => exact .inr ⟨hentry, hloaded⟩

theorem stage_present (h : u.reading.document.entry? a.kind name = some entry) (k : Nat) :
    u.stage k a name = .invalid ∨ (u.stage k a name).IsFound := by
  rcases loaded_or_pending h with hloaded | hpending
  · rw [stage_loaded h hloaded, kept, Answer.of]
    split <;> simp
  · cases k with
    | zero => exact .inl hpending.stage_zero
    | succ k =>
      rw [hpending.stage_succ, outcome]
      split <;> simp

/-- What is found for a pending entry has been found by its inquiry with the answers of the stage before. -/
theorem Pending.exists_of_stage_found (h : u.Pending a name entry) {k : Nat}
    (hfound : u.stage k a name = .found value) :
    ∃ j, k = j + 1 ∧ ((u.reading.plan a name entry).examine (u.stage j)).result = .ok (some value) := by
  cases k with
  | zero => rw [h.stage_zero] at hfound; cases hfound
  | succ j =>
    rw [h.stage_succ, outcome_eq_found_iff] at hfound
    exact ⟨j, rfl, hfound⟩

/-- What is found at a stage is kept in its cell or pending. -/
theorem kept_or_pending {k : Nat} (h : u.stage k a name = .found value) :
    (∀ j, u.stage j a name = u.kept a name) ∧ (u.progress.cell a name).memo = .valid value ∨
      ∃ entry, u.Pending a name entry := by
  cases hentry : u.reading.document.entry? a.kind name with
  | none => rw [stage_missing hentry] at h; cases h
  | some entry =>
    rcases loaded_or_pending hentry with hloaded | hpending
    · have hkept := stage_loaded hentry hloaded
      rw [hkept, kept_eq_found_iff] at h
      exact .inl ⟨hkept, h⟩
    · exact .inr ⟨entry, hpending⟩

theorem stage_step {k : Nat} : ∀ {a : Asset} {name : String} {value : a.Value},
    u.stage k a name = .found value → u.stage (k + 1) a name = .found value := by
  induction k with
  | zero =>
    intro a name value h
    rcases kept_or_pending h with ⟨hkept, hvalid⟩ | ⟨entry, hpending⟩
    · rw [hkept, kept_eq_found_iff, hvalid]
    · obtain ⟨j, hj, -⟩ := hpending.exists_of_stage_found h
      cases hj
  | succ k ih =>
    intro a name value h
    rcases kept_or_pending h with ⟨hkept, hvalid⟩ | ⟨entry, hpending⟩
    · rw [hkept, kept_eq_found_iff, hvalid]
    · obtain ⟨j, hj, hresult⟩ := hpending.exists_of_stage_found h
      cases hj
      rw [hpending.stage_succ, outcome_eq_found_iff, Inquiry.examine_congr, hresult]
      intro question hq
      obtain ⟨answer, hanswer⟩ := u.reading.plan_earns a name entry hresult question hq
      rw [hanswer]
      exact ih hanswer

theorem stage_mono {j k : Nat} (hjk : j ≤ k) (h : u.stage j a name = .found value) :
    u.stage k a name = .found value := by
  induction hjk with
  | refl => exact h
  | step _ ih => exact stage_step ih

open Classical in
/-- All answers that are found at some stage. -/
noncomputable def meaning (u : Usage) : Oracle := fun a name =>
  if h : ∃ k, (u.stage k a name).IsFound then u.stage h.choose a name else u.stage 0 a name

theorem meaning_eq_of_stage {k : Nat} (h : u.stage k a name = .found value) :
    u.meaning a name = .found value := by
  have hex : ∃ k, (u.stage k a name).IsFound := ⟨k, value, h⟩
  rw [meaning, dif_pos hex]
  obtain ⟨value', h'⟩ := hex.choose_spec
  have hmax := stage_mono (Nat.le_max_left k hex.choose) h
  rw [stage_mono (Nat.le_max_right k hex.choose) h'] at hmax
  rw [h', hmax]

theorem exists_stage_of_meaning (h : u.meaning a name = .found value) :
    ∃ k, u.stage k a name = .found value := by
  unfold meaning at h
  split at h
  · next hex => exact ⟨_, h⟩
  · next hex => exact absurd ⟨0, value, h⟩ hex

theorem exists_stage_eq_meaning (u : Usage) (a : Asset) (name : String) :
    ∃ k, u.meaning a name = u.stage k a name := by
  unfold meaning
  split
  · exact ⟨_, rfl⟩
  · exact ⟨_, rfl⟩

theorem meaning_missing (h : u.reading.document.entry? a.kind name = none) : u.meaning a name = .missing := by
  obtain ⟨k, hk⟩ := u.exists_stage_eq_meaning a name
  rw [hk, stage_missing h]

theorem meaning_loaded (hentry : u.reading.document.entry? a.kind name = some entry)
    (hloaded : (u.progress.cell a name).memo.isLoaded = true) : u.meaning a name = u.kept a name := by
  obtain ⟨k, hk⟩ := u.exists_stage_eq_meaning a name
  rw [hk, stage_loaded hentry hloaded]

theorem meaning_present (h : u.reading.document.entry? a.kind name = some entry) :
    u.meaning a name = .invalid ∨ (u.meaning a name).IsFound := by
  obtain ⟨k, hk⟩ := u.exists_stage_eq_meaning a name
  rw [hk]
  exact stage_present h k

theorem meaning_ne_missing (h : u.reading.document.entry? a.kind name = some entry) :
    u.meaning a name ≠ .missing := by
  rcases meaning_present h with hm | ⟨value, hm⟩ <;> simp [hm]

/-- Finitely many entries that the meaning finds are found together at one stage. -/
theorem exists_common_stage {questions : List (Asset × String)}
    (h : ∀ question ∈ questions, (u.meaning question.1 question.2).IsFound) :
    ∃ k, ∀ question ∈ questions, u.stage k question.1 question.2 = u.meaning question.1 question.2 := by
  induction questions with
  | nil => exact ⟨0, by simp⟩
  | cons question rest ih =>
    obtain ⟨k, hrest⟩ := ih fun q hq => h q (List.mem_cons_of_mem _ hq)
    obtain ⟨value, hfound⟩ := h question (List.mem_cons_self ..)
    obtain ⟨j, hj⟩ := exists_stage_of_meaning hfound
    refine ⟨max j k, fun q hq => ?_⟩
    rcases List.mem_cons.mp hq with rfl | hq
    · rw [hfound]
      exact stage_mono (Nat.le_max_left j k) hj
    · obtain ⟨answer, hanswer⟩ := h q (List.mem_cons_of_mem _ hq)
      rw [hanswer]
      exact stage_mono (Nat.le_max_right j k) ((hrest q hq).trans hanswer)

/-- An inquiry that finds a value at a stage goes the same way in the meaning. -/
theorem examine_meaning {k : Nat}
    (h : ((u.reading.plan a name entry).examine (u.stage k)).result = .ok (some value)) :
    (u.reading.plan a name entry).examine u.meaning = (u.reading.plan a name entry).examine (u.stage k) := by
  refine Inquiry.examine_congr _ fun question hq => ?_
  obtain ⟨answer, hanswer⟩ := u.reading.plan_earns a name entry h question hq
  rw [hanswer]
  exact meaning_eq_of_stage hanswer

/-- The meaning of a pending entry is what its inquiry finds in the meaning. -/
theorem meaning_eq_found_iff (hpending : u.Pending a name entry) :
    u.meaning a name = .found value ↔
      ((u.reading.plan a name entry).examine u.meaning).result = .ok (some value) := by
  constructor
  · intro h
    obtain ⟨k, hk⟩ := exists_stage_of_meaning h
    obtain ⟨j, -, hresult⟩ := hpending.exists_of_stage_found hk
    rw [examine_meaning hresult, hresult]
  · intro h
    obtain ⟨k, hk⟩ := exists_common_stage (u.reading.plan_earns a name entry h)
    refine meaning_eq_of_stage (k := k + 1) ?_
    rw [hpending.stage_succ, outcome_eq_found_iff, Inquiry.examine_congr _ hk, h]

/-- The meaning finds a value for an entry only after it has found one for another. -/
def Needs (u : Usage) (a : Asset) (name : String) (b : Asset) (other : String) : Prop :=
  ∀ k, (u.stage k a name).IsFound → ∃ j < k, (u.stage j b other).IsFound

theorem Needs.trans {c : Asset} {last : String} (h : u.Needs a name b other)
    (h' : u.Needs b other c last) : u.Needs a name c last := by
  intro k hk
  obtain ⟨j, hj, hfound⟩ := h k hk
  obtain ⟨i, hi, hfound'⟩ := h' j hfound
  exact ⟨i, Nat.lt_trans hi hj, hfound'⟩

theorem Needs.not_found (h : u.Needs a name a name) (k : Nat) : ¬ (u.stage k a name).IsFound := by
  induction k using Nat.strongRecOn with
  | ind k ih =>
    intro hk
    obtain ⟨j, hj, hfound⟩ := h k hk
    exact ih j hj hfound

theorem not_isFound_meaning (h : ∀ k, ¬ (u.stage k a name).IsFound) : ¬ (u.meaning a name).IsFound := by
  rintro ⟨value, hvalue⟩
  obtain ⟨k, hk⟩ := exists_stage_of_meaning hvalue
  exact h k ⟨value, hk⟩

/-- What the inquiry of a pending entry asks about is needed. -/
theorem needs_of_asked (hpending : u.Pending a name entry)
    (h : (b, other) ∈ ((u.reading.plan a name entry).examine u.meaning).asked) : u.Needs a name b other := by
  rintro k ⟨value, hk⟩
  obtain ⟨j, rfl, hresult⟩ := hpending.exists_of_stage_found hk
  rw [examine_meaning hresult] at h
  exact ⟨j, Nat.lt_succ_self j, u.reading.plan_earns a name entry hresult _ h⟩

end Usage

end DesignTokens
