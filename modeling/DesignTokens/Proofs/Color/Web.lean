import DesignTokens.Proofs.Color.Valid
import DesignTokens.Proofs.Json.Writing

/-!
# Web colors

A web color is six or eight hexadecimal digits, and nothing else is one. The scan that reads them stops after four
pairs, at a single digit left over and at a character that is no digit; together these tests say no more than that.
The bytes are divided by 255 right away, whereas components are divided by a scale that their values suggest. The two
ways meet in one color as soon as one of the four bytes exceeds one, and alpha does where it is left out.

No metric and no other color takes part, so that a web color is the same in every document and leads to no fault.

* `ColorText.webBytes_run` — what the scan comes to.
* `ColorText.exists_webBytes_iff` — the digits that it accepts.
* `ColorText.webBytes_ofParts` — the bytes of a web color as components.
* `Reading.web_resolves_iff` — which web colors are valid, and which components give the same color.
-/

namespace DesignTokens

open Resolve

/-! ### Numbers in decimal -/

namespace Number.Literal

open Json.Reader

theorem isDigit_toString {n : Nat} {c : Char} (h : c ∈ (toString n).toList) : c.isDigit = true := by
  rw [Nat.toString_eq_ofList_toDigits, String.toList_ofList] at h
  exact isDigit_toDigits h

theorem digitRun_digits {cs : List Char} (h : ∀ c ∈ cs, c.isDigit = true) :
    digitRun Text.decimalValue? cs = (decimalValues cs, []) := by
  induction cs with
  | nil => rfl
  | cons c cs ih =>
    obtain ⟨hc, hcs⟩ := List.forall_mem_cons.mp h
    simp only [digitRun, decimalValue?_of_isDigit hc, ih hcs, decimalValues, List.filterMap_cons]

theorem ofDecimal_whole (n : Nat) : ofDecimal false n 0 = Float.ofNat n := by
  cases n with
  | zero => decide +kernel
  | succ n => rfl

/-- A number in decimal is the literal of its value. -/
theorem number?_toString (n : Nat) : number? (toString n) = .ok (some (Float.ofNat n)) := by
  have hdigits := digitRun_digits fun c hc => isDigit_toDigits (n := n) hc
  have hread : read? (toString n) = some (.decimal false (decimalValues (Nat.toDigits 10 n)) [] 0) := by
    refine read?_of_decimal? ?_
    rw [Nat.toString_eq_ofList_toDigits, String.toList_ofList]
    cases hcs : Nat.toDigits 10 n with
    | nil => exact absurd hcs Nat.toDigits_ne_nil
    | cons c cs =>
      have hc : c.isDigit = true := isDigit_toDigits (n := n) (by rw [hcs]; exact List.mem_cons_self ..)
      have hsign : signAndRest (c :: cs) = (false, c :: cs) := by
        unfold signAndRest
        split
        · next heq => cases heq; cases hc
        · next heq => cases heq; cases hc
        · rfl
      have hvalues : decimalValues (c :: cs) = (c.toNat - '0'.toNat) :: decimalValues cs := by
        simp only [decimalValues, List.filterMap_cons, decimalValue?_of_isDigit hc]
      have hmantissa : mantissa? Text.decimalValue? (c :: cs) = some (decimalValues (c :: cs), [], []) := by
        rw [hcs] at hdigits
        rw [mantissa?, hdigits, hvalues]
      simp only [hsign, decimal?, hmantissa, exponent?, Option.bind_eq_bind, Option.bind_some]
      rfl
  simp only [number?, hread, value?, List.append_nil, ofDigits_toDigits]
  exact congrArg (fun x => Except.ok (some x)) (ofDecimal_whole n)

end Number.Literal

namespace ColorText

theorem withoutSpaces_of_not_mem {text : String} (h : ' ' ∉ text.toList) : Text.withoutSpaces text = text := by
  rw [Text.withoutSpaces, List.filter_eq_self.mpr fun c hc => by simpa using ne_of_mem_of_not_mem hc h,
    String.ofList_toList]

/-! ### Digits -/

/-- A hexadecimal digit in either case. -/
def IsHexDigit (c : Char) : Prop := '0' ≤ c ∧ c ≤ '9' ∨ 'a' ≤ c ∧ c ≤ 'f' ∨ 'A' ≤ c ∧ c ≤ 'F'

/-- Six or eight hexadecimal digits. -/
def IsHexColor (text : String) : Prop :=
  (text.length = 6 ∨ text.length = 8) ∧ ∀ c ∈ text.toList, IsHexDigit c

theorem isHexDigit_iff {c : Char} : IsHexDigit c ↔ ∃ value, Number.Literal.hexValue? c = some value := by
  unfold IsHexDigit Number.Literal.hexValue?
  simp only [Bool.and_eq_true, decide_eq_true_eq]
  split
  · next h => exact iff_of_true (.inl h) ⟨_, rfl⟩
  split
  · next h => exact iff_of_true (.inr (.inl h)) ⟨_, rfl⟩
  split
  · next h => exact iff_of_true (.inr (.inr h)) ⟨_, rfl⟩
  · next hdecimal hsmall hlarge => exact iff_of_false (by simp [hdecimal, hsmall, hlarge]) (by simp)

theorem Hex.length {digits : List Char} {bytes : List Nat} (h : Hex digits bytes) :
    digits.length = 2 * bytes.length := by
  induction h with
  | nil => rfl
  | cons _ _ _ ih => simp only [List.length_cons, ih]; omega

theorem Hex.isHexDigit {digits : List Char} {bytes : List Nat} (h : Hex digits bytes) : ∀ c ∈ digits, IsHexDigit c := by
  induction h with
  | nil => simp
  | cons hhigh hlow _ ih =>
    refine List.forall_mem_cons.mpr ⟨isHexDigit_iff.mpr ⟨_, hhigh⟩, ?_⟩
    exact List.forall_mem_cons.mpr ⟨isHexDigit_iff.mpr ⟨_, hlow⟩, ih⟩

/-- Digits in pairs have bytes. -/
theorem exists_hex (count : Nat) {digits : List Char} (hlength : digits.length = 2 * count)
    (h : ∀ c ∈ digits, IsHexDigit c) : ∃ bytes, Hex digits bytes := by
  induction count generalizing digits with
  | zero =>
    obtain rfl := List.length_eq_zero_iff.mp hlength
    exact ⟨[], .nil⟩
  | succ count ih =>
    obtain _ | ⟨a, _ | ⟨b, rest⟩⟩ := digits
    · simp at hlength
    · simp only [List.length_singleton] at hlength
      omega
    · obtain ⟨ha, hb, hrest⟩ : IsHexDigit a ∧ IsHexDigit b ∧ ∀ c ∈ rest, IsHexDigit c := by simpa using h
      obtain ⟨bytes, hbytes⟩ := ih (by simp only [List.length_cons] at hlength; omega) hrest
      obtain ⟨high, hhigh⟩ := isHexDigit_iff.mp ha
      obtain ⟨low, hlow⟩ := isHexDigit_iff.mp hb
      exact ⟨_, .cons hhigh hlow hbytes⟩

theorem WebBytes.length_eq {read : List Nat} {digits : List Char} {bytes : List Nat} (h : WebBytes read digits bytes) :
    bytes.length = 4 := by
  obtain ⟨given, -, ⟨hlength, rfl⟩ | ⟨hlength, rfl⟩⟩ := h
  · rw [List.length_append, hlength, List.length_singleton]
  · exact hlength

/-- The digits with bytes are those of web colors. -/
theorem exists_webBytes_iff {text : String} : (∃ bytes, WebBytes [] text.toList bytes) ↔ IsHexColor text := by
  unfold IsHexColor WebBytes
  rw [← String.length_toList]
  simp only [List.nil_append]
  constructor
  · rintro ⟨bytes, given, hgiven, hbytes⟩
    have hlength := hgiven.length
    refine ⟨?_, hgiven.isHexDigit⟩
    rcases hbytes with ⟨hcount, -⟩ | ⟨hcount, -⟩ <;> omega
  · rintro ⟨hlength | hlength, hdigits⟩
    · obtain ⟨given, hgiven⟩ := exists_hex 3 hlength hdigits
      have hcount := hgiven.length
      exact ⟨_, given, hgiven, .inl ⟨by omega, rfl⟩⟩
    · obtain ⟨given, hgiven⟩ := exists_hex 4 hlength hdigits
      have hcount := hgiven.length
      exact ⟨_, given, hgiven, .inr ⟨by omega, rfl⟩⟩

/-- Without digits for alpha it is full. -/
theorem WebBytes.alpha_eq {text : String} {red green blue alpha : Nat}
    (h : WebBytes [] text.toList [red, green, blue, alpha]) (hlength : text.length = 6) : alpha = 255 := by
  obtain ⟨given, hgiven, ⟨-, hbytes⟩ | ⟨hcount, -⟩⟩ := h
  · have hlast := congrArg List.getLast? hbytes
    simpa using hlast
  · have hdigits := hgiven.length
    rw [String.length_toList, hlength] at hdigits
    rw [List.nil_append] at hcount
    omega

/-! ### The scan -/

section Scan

variable {raw : String}

/-- The scan comes to an end and asks nothing, and what it finds are the bytes. -/
theorem webBytes_run (raw : String) (digits : List Char) (read : List Nat) (p : Progress) :
    ∃ found p', webBytes raw digits read p = .ok found p' ∧ p'.begun = p.begun ∧
      ∀ bytes, WebBytes read digits bytes → found = some bytes := by
  -- Wherever the scan gives up there are no bytes: a pair that is none, a fifth pair, a digit without another.
  fun_induction webBytes raw digits read with
  | case1 a b rest read _ high low hlow hhigh ih =>
    obtain ⟨found, p', hrun, hbegun, hfound⟩ := ih
    refine ⟨found, p', hrun, hbegun, fun bytes => ?_⟩
    rintro ⟨given, hgiven, hbytes⟩
    cases hgiven with
    | cons hhigh' hlow' hrest =>
      cases hhigh.symm.trans hhigh'
      cases hlow.symm.trans hlow'
      exact hfound bytes ⟨_, hrest, by simpa using hbytes⟩
  | case2 a b rest read _ hnone =>
    refine ⟨none, _, rfl, rfl, ?_⟩
    rintro bytes ⟨given, hgiven, -⟩
    cases hgiven with
    | cons hhigh hlow _ => exact absurd hlow (hnone _ _ hhigh)
  | case3 a b rest read hfull =>
    refine ⟨none, _, rfl, rfl, ?_⟩
    rintro bytes ⟨given, hgiven, hbytes⟩
    cases hgiven with
    | cons => rcases hbytes with ⟨hlength, -⟩ | ⟨hlength, -⟩ <;> simp at hlength <;> omega
  | case4 =>
    refine ⟨none, _, rfl, rfl, ?_⟩
    rintro bytes ⟨given, hgiven, -⟩
    cases hgiven
  | case5 read hthree =>
    refine ⟨_, _, rfl, rfl, ?_⟩
    rintro bytes ⟨given, ⟨⟩, ⟨-, rfl⟩ | ⟨hlength, -⟩⟩
    · simp
    · simp at hlength
      omega
  | case6 read _ hfour =>
    refine ⟨_, _, rfl, rfl, ?_⟩
    rintro bytes ⟨given, ⟨⟩, ⟨hlength, -⟩ | ⟨-, rfl⟩⟩
    · simp at hlength
      omega
    · simp
  | case7 read hthree hfour =>
    refine ⟨none, _, rfl, rfl, ?_⟩
    rintro bytes ⟨given, ⟨⟩, ⟨hlength, -⟩ | ⟨hlength, -⟩⟩
    · exact absurd (by simpa using hlength) hthree
    · exact absurd (by simpa using hlength) hfour

/-- The color of four bytes. -/
def ofBytes (red green blue alpha : Nat) : Color :=
  ⟨Float.ofNat red / 255.0, Float.ofNat green / 255.0, Float.ofNat blue / 255.0, Float.ofNat alpha / 255.0⟩

variable {metrics colors : Mapping String} {digits : String} {color : Color}

theorem denotes_web_iff (hwords : Metric.words (Text.withoutSpaces raw) = ["web", digits]) :
    Denotes metrics colors raw color ↔ ∃ red green blue alpha,
      WebBytes [] digits.toList [red, green, blue, alpha] ∧ color = ofBytes red green blue alpha := by
  constructor
  · intro hdenotes
    cases hdenotes with
    | components hwords' hformat _ hweb _ _ _ _ => exact absurd (format_unique hwords' hformat hwords ofWord?_web) hweb
    | web hwords' hbytes hcolor =>
      cases hwords.symm.trans hwords'
      obtain ⟨red, green, blue, alpha, rfl⟩ := List.length_eq_four.mp hbytes.length_eq
      exact ⟨red, green, blue, alpha, hbytes, hcolor.unique (.rgb rfl)⟩
    | standard hwords' _ _ => cases format_unique hwords ofWord?_web hwords' ofWord?_named
    | named hwords' _ _ => cases format_unique hwords ofWord?_web hwords' ofWord?_named
  · rintro ⟨red, green, blue, alpha, hbytes, rfl⟩
    exact .web hwords hbytes (.rgb rfl)

/-- The computation of a web color comes to an end and asks nothing, and it finds the color that the text stands
for. -/
theorem compute_web (metrics colors : Mapping String)
    (hwords : Metric.words (Text.withoutSpaces raw) = ["web", digits]) (metric : Metric.Lookup)
    (lookup : String → Resolve Lookup) (isEntry : String → Bool) (owner : String) (p : Progress) :
    ∃ found p', compute metric lookup isEntry owner raw p = .ok found p' ∧ p'.begun = p.begun ∧
      ∀ color, found = some color ↔ Denotes metrics colors raw color := by
  obtain ⟨bytes, p', hrun, hbegun, hcomplete⟩ := webBytes_run raw digits.toList [] p
  unfold compute
  simp only [denotes_web_iff hwords, hwords, ofWord?_web]
  cases bytes with
  | none =>
    refine ⟨none, p', bind_of_ok hrun, hbegun, fun color => iff_of_false (by simp) ?_⟩
    rintro ⟨red, green, blue, alpha, hbytes, -⟩
    cases hcomplete _ hbytes
  | some bytes =>
    have hbytes := webBytes_sound hrun
    obtain ⟨red, green, blue, alpha, rfl⟩ := List.length_eq_four.mp hbytes.length_eq
    refine ⟨some (ofBytes red green blue alpha), p', bind_of_ok hrun, hbegun, fun color => ?_⟩
    constructor
    · rintro ⟨⟩
      exact ⟨red, green, blue, alpha, hbytes, rfl⟩
    · rintro ⟨red', green', blue', alpha', hbytes', rfl⟩
      cases hbytes.unique hbytes'
      rfl

end Scan

/-! ### Bytes as components -/

section Bytes

variable {metrics : Mapping String} {red green blue alpha byte : Nat}

theorem byte_inRange (h : byte < 256) : Number.InRange 255 (Float.ofNat byte) :=
  Number.inRange_ofNat (Nat.le_of_lt_succ h) (by decide)

theorem isFinite_byte (h : byte < 256) : (Float.ofNat byte).isFinite = true := by
  obtain ⟨s, m, e, hexact, -⟩ := (byte_inRange h).exact
  exact Number.isFinite_iff.mpr ⟨s, m, e, hexact⟩

/-- A byte that is greater than one is so as a double. -/
theorem byte_order (h : byte < 256) : byte ≤ 1 ∨ 1.0 < Float.ofNat byte ∧ ¬ Float.ofNat byte < 1.0 := by
  have hall : ∀ byte ∈ List.range 256, byte ≤ 1 ∨ 1.0 < Float.ofNat byte ∧ ¬ Float.ofNat byte < 1.0 := by
    decide +kernel
  exact hall byte (List.mem_range.mpr h)

theorem one_lt_byte_iff (h : byte < 256) : 1.0 < Float.ofNat byte ↔ 1 < byte := by
  rcases byte_order h with hsmall | ⟨hone, -⟩
  · have hzero : ¬ (1.0 : Float) < Float.ofNat 0 := by decide
    have hself : ¬ (1.0 : Float) < Float.ofNat 1 := by decide
    interval_cases byte
    · exact iff_of_false hzero (by decide)
    · exact iff_of_false hself (by decide)
  · refine iff_of_true hone (Nat.lt_of_not_le fun hsmall => ?_)
    have hone' : 1.0 < Float.ofNat byte := hone
    interval_cases byte
    · exact absurd hone' (by decide)
    · exact absurd hone' (by decide)

/-- No byte is a proper fraction. -/
theorem byte_whole (h : byte < 256) : ¬ (0.0 < Float.ofNat byte ∧ Float.ofNat byte < 1.0) := by
  rintro ⟨hpositive, hbelow⟩
  rcases byte_order h with hsmall | ⟨-, hnot⟩
  · interval_cases byte
    · exact absurd hpositive (by decide)
    · exact absurd hbelow (by decide)
  · exact hnot hbelow

theorem gives_byte {known : String → Float → Prop} (h : byte < 256) :
    Gives known (toString byte) (some (Float.ofNat byte)) :=
  .literal (Number.Literal.number?_toString byte) (isFinite_byte h)

/-- Bytes are on one scale. -/
theorem oneScale_bytes {bytes : List Nat} (h : ∀ byte ∈ bytes, byte < 256) :
    OneScale (bytes.map fun byte => some (Float.ofNat byte)) where
  within value hvalue := by
    obtain ⟨byte, hmem, hbyte⟩ := List.mem_map.mp hvalue
    cases hbyte
    exact (Number.inRange_iff Number.isNat_255).mp (byte_inRange (h byte hmem))
  unmixed := by
    rintro ⟨⟨value, hvalue, hfraction⟩, -⟩
    obtain ⟨byte, hmem, hbyte⟩ := List.mem_map.mp hvalue
    cases hbyte
    exact byte_whole (h byte hmem) hfraction

theorem exceeds_bytes {bytes : List Nat} (h : ∀ byte ∈ bytes, byte < 256) :
    exceeds (bytes.map fun byte => some (Float.ofNat byte)) = true ↔ ∃ byte ∈ bytes, 1 < byte := by
  rw [exceeds_iff]
  constructor
  · rintro ⟨value, hvalue, hone⟩
    obtain ⟨byte, hmem, hbyte⟩ := List.mem_map.mp hvalue
    cases hbyte
    exact ⟨byte, hmem, (one_lt_byte_iff (h byte hmem)).mp hone⟩
  · rintro ⟨byte, hmem, hone⟩
    exact ⟨_, List.mem_map_of_mem hmem, (one_lt_byte_iff (h byte hmem)).mpr hone⟩

/-- The text of a color whose components are numbers in decimal. -/
def rgbaText (red green blue alpha : Nat) : String :=
  "rgba/" ++ toString red ++ "/" ++ toString green ++ "/" ++ toString blue ++ "/" ++ toString alpha

theorem isComponents_rgbaText (red green blue alpha : Nat) :
    IsComponents (rgbaText red green blue alpha) .rgba
      [toString red, toString green, toString blue, toString alpha] := by
  have hslash (n : Nat) : '/' ∉ (toString n).toList := fun hmem => by
    cases Number.Literal.isDigit_toString hmem
  have hspaces (n : Nat) : Text.withoutSpaces (toString n) = toString n := by
    refine withoutSpaces_of_not_mem fun hmem => ?_
    cases Number.Literal.isDigit_toString hmem
  refine ⟨⟨"rgba", ?_, by decide⟩, by decide, by decide⟩
  have htext : Text.withoutSpaces (rgbaText red green blue alpha) = "rgba" ++ "/" ++
      (toString red ++ "/" ++ (toString green ++ "/" ++ (toString blue ++ "/" ++ toString alpha))) := by
    have htag : Text.withoutSpaces "rgba/" = "rgba" ++ "/" := by decide
    have hbar : Text.withoutSpaces "/" = "/" := by decide
    simp only [rgbaText, Text.withoutSpaces_append, hspaces, htag, hbar, String.append_assoc]
  rw [htext, Metric.words_append (by decide), Metric.words_append (hslash red), Metric.words_append (hslash green),
    Metric.words_append (hslash blue), Metric.words_of_not_mem (hslash alpha)]

/-- As components bytes make the color that they make as a web color, if one of them exceeds one. -/
theorem webBytes_ofParts {digits : List Char} (h : WebBytes [] digits [red, green, blue, alpha])
    (hexceeds : ∃ byte ∈ [red, green, blue, alpha], 1 < byte) :
    OfParts metrics .rgba [toString red, toString green, toString blue, toString alpha]
      (ofBytes red green blue alpha) := by
  have hbytes : ∀ byte ∈ [red, green, blue, alpha], byte < 256 :=
    fun byte hbyte => Nat.lt_succ_of_le (h.byte_le byte hbyte)
  obtain ⟨hred, hgreen, hblue, halpha⟩ : red < 256 ∧ green < 256 ∧ blue < 256 ∧ alpha < 256 := by simpa using hbytes
  refine ⟨rfl, [red, green, blue, alpha].map fun byte => some (Float.ofNat byte), ?_, oneScale_bytes hbytes, ?_⟩
  · refine .cons (gives_byte hred) (.cons (gives_byte hgreen) ?_)
    exact .cons (gives_byte hblue) (.cons (gives_byte halpha) .nil)
  · have hscale (x : Float) :
        fraction ([red, green, blue, alpha].map fun byte => some (Float.ofNat byte)) x = x / 255.0 :=
      if_pos ((exceeds_bytes hbytes).mpr hexceeds)
    have hfractions : fractions .rgba ([red, green, blue, alpha].map fun byte => some (Float.ofNat byte)) =
        [Float.ofNat red / 255.0, Float.ofNat green / 255.0, Float.ofNat blue / 255.0, Float.ofNat alpha / 255.0] := by
      simp only [List.map_cons, List.map_nil] at hscale ⊢
      simp [fractions, hscale, ColorFormat.alphaIndex]
    rw [hfractions]
    exact .rgb rfl

end Bytes

/-! ### Cells of web colors -/

/-- A web color is kept as valid exactly if it is the color of its text. -/
def WebKept (d : Document) : (a : Asset) → String → Memo a.Value → Prop
  | .color, name, memo => ∀ raw digits, d.sections.colors.find? name = some raw →
      Metric.words (Text.withoutSpaces raw) = ["web", digits] →
      ∀ color, memo = .valid color ↔ Denotes d.sections.metrics d.sections.colors raw color
  | _, _, _ => True

section Cells

variable {u : Usage} {name raw digits : String}

/-- What the inquiry of a web color comes to. -/
theorem examine_web (u : Usage) (name : String)
    (hwords : Metric.words (Text.withoutSpaces raw) = ["web", digits]) (o : Oracle) :
    ((u.reading.plan .color name raw).examine o).asked = [] ∧
      ∃ found, ((u.reading.plan .color name raw).examine o).result = .ok found ∧ ∀ color, found = some color ↔
        Denotes u.reading.document.sections.metrics u.reading.document.sections.colors raw color := by
  obtain ⟨found, p', hrun, hbegun, hfound⟩ := compute_web u.reading.document.sections.metrics
    u.reading.document.sections.colors hwords (Resolvers.probe o).metric (Resolvers.probe o).color
    u.reading.document.sections.colors.contains name {}
  obtain ⟨hresult, hasked⟩ := Reading.examine_eq_of_compute (a := .color) hrun
  exact ⟨by rw [hasked, hbegun]; rfl, found, hresult, hfound⟩

/-- The meaning of a web color is the color of its text, whatever it may be kept with. -/
theorem meaning_web_iff (hkept : u.progress.AllLoaded (WebKept u.reading.document))
    (hentry : u.reading.document.sections.colors.find? name = some raw)
    (hwords : Metric.words (Text.withoutSpaces raw) = ["web", digits]) {color : Color} :
    u.meaning .color name = .found color ↔
      Denotes u.reading.document.sections.metrics u.reading.document.sections.colors raw color := by
  rcases Usage.loaded_or_pending (a := .color) hentry with hloaded | hpending
  · rw [Usage.meaning_loaded (a := .color) hentry hloaded, Usage.kept_eq_found_iff]
    exact hkept .color name hloaded raw digits hentry hwords color
  · obtain ⟨-, found, hresult, hfound⟩ := examine_web u name hwords u.meaning
    rw [Usage.meaning_eq_found_iff hpending, hresult, Except.ok.injEq, hfound]

/-- What is kept as the meaning says is kept rightly. -/
theorem webKept_of_meaning {d : Document} (hdocument : u.reading.document = d)
    (hkept : u.progress.AllLoaded (WebKept d)) (a : Asset) (name : String) (memo : Memo a.Value)
    (hmemo : ∀ value, memo = .valid value ↔ u.meaning a name = .found value) : WebKept d a name memo := by
  subst hdocument
  cases a with
  | color => exact fun raw digits hentry hwords color => (hmemo color).trans (meaning_web_iff hkept hentry hwords)
  | _ => exact trivial

/-- A web color leads to no fault. -/
theorem not_faulty_web (hentry : u.reading.document.sections.colors.find? name = some raw)
    (hwords : Metric.words (Text.withoutSpaces raw) = ["web", digits]) : ¬ u.Faulty .color name := by
  obtain ⟨hasked, found, hresult, -⟩ := examine_web u name hwords u.meaning
  rintro ⟨fault, question, hpath, hbreaks⟩
  cases hpath.cases_head with
  | inl hsame =>
    subst hsame
    obtain ⟨entry, hpending, hfault⟩ := hbreaks
    cases hpending.present.symm.trans hentry
    rw [hresult] at hfault
    cases hfault
  | inr hnext =>
    obtain ⟨other, ⟨entry, hpending, hmem⟩, -⟩ := hnext
    cases hpending.present.symm.trans hentry
    rw [hasked] at hmem
    cases hmem

end Cells

end ColorText

/-- The color of components in every use of a document, as the rule says. -/
theorem Reading.resolvesTo_ofParts {reading : Reading} {operations : List Operation} {u : Usage}
    (h : Operation.performAll { reading } operations = .ok u) {name raw : String} {format : ColorFormat}
    {parts : List String} (hentry : reading.document.sections.colors.find? name = some raw)
    (hraw : ColorText.IsComponents raw format parts) {color : Color} :
    u.ResolvesTo .color name color ↔ ColorText.OfParts reading.document.sections.metrics format parts color := by
  obtain ⟨hdocument, hrests, hkept⟩ := Operation.performAll_memos h fun _ => ColorText.allKeptRightly_of_meaning
  rw [← hdocument] at hentry hkept ⊢
  rw [Usage.resolvesTo_iff_meaning (a := .color) hrests hentry, ColorText.meaning_iff_denotes hkept hentry hraw,
    ColorText.denotes_iff_ofParts hraw]

/-- A web color comes to a value, whatever operations came before. It is valid exactly if it has six or eight
hexadecimal digits. If a byte of it exceeds one, and so in any case if it has six digits, the components that are equal
to its bytes give the same color, in every document and after any operations. -/
theorem Reading.web_resolves_iff (reading : Reading) (operations : List Operation) (u : Usage)
    (h : Operation.performAll { reading } operations = .ok u) (name digits : String) (hspace : ' ' ∉ digits.toList)
    (hslash : '/' ∉ digits.toList) (hentry : reading.document.sections.colors.find? name = some ("web/" ++ digits)) :
    (∃ value p', u.reading.resolve .color name u.progress = .ok value p') ∧
    ((∃ color, u.ResolvesTo .color name color) ↔ ColorText.IsHexColor digits) ∧
    (ColorText.IsHexColor digits → ∃ red green blue alpha,
      ColorText.WebBytes [] digits.toList [red, green, blue, alpha] ∧
      (digits.length = 6 → ∃ byte ∈ [red, green, blue, alpha], 1 < byte) ∧
      ((∃ byte ∈ [red, green, blue, alpha], 1 < byte) → ∃ color, u.ResolvesTo .color name color ∧
        ∀ (reading' : Reading) (operations' : List Operation) (u' : Usage) (other : String),
          Operation.performAll { reading := reading' } operations' = .ok u' →
          reading'.document.sections.colors.find? other = some (ColorText.rgbaText red green blue alpha) →
          u'.ResolvesTo .color other color)) := by
  have hwords : Metric.words (Text.withoutSpaces ("web/" ++ digits)) = ["web", digits] := by
    have htext : Text.withoutSpaces ("web/" ++ digits) = "web" ++ "/" ++ digits := by
      have htag : Text.withoutSpaces "web/" = "web" ++ "/" := by decide
      rw [Text.withoutSpaces_append, htag, ColorText.withoutSpaces_of_not_mem hspace]
    rw [htext, Metric.words_append (by decide), Metric.words_of_not_mem hslash]
  obtain ⟨hdocument, hrests, hkept⟩ := Operation.performAll_memos h fun _ => ColorText.webKept_of_meaning
  rw [← hdocument] at hentry hkept
  have hcolor (color : Color) : u.ResolvesTo .color name color ↔ ∃ red green blue alpha,
      ColorText.WebBytes [] digits.toList [red, green, blue, alpha] ∧
        color = ColorText.ofBytes red green blue alpha := by
    rw [Usage.resolvesTo_iff_meaning (a := .color) hrests hentry, ColorText.meaning_web_iff hkept hentry hwords,
      ColorText.denotes_web_iff hwords]
  refine ⟨?_, ?_, ?_⟩
  · obtain ⟨value, p', hresolve, -⟩ := Usage.resolve_answer (a := .color) hrests hentry
      (ColorText.not_faulty_web hentry hwords)
    exact ⟨value, p', hresolve⟩
  · rw [← ColorText.exists_webBytes_iff]
    constructor
    · rintro ⟨color, hresolves⟩
      obtain ⟨red, green, blue, alpha, hbytes, -⟩ := (hcolor color).mp hresolves
      exact ⟨_, hbytes⟩
    · rintro ⟨bytes, hbytes⟩
      obtain ⟨red, green, blue, alpha, rfl⟩ := List.length_eq_four.mp hbytes.length_eq
      exact ⟨_, (hcolor _).mpr ⟨red, green, blue, alpha, hbytes, rfl⟩⟩
  · intro hdigits
    obtain ⟨bytes, hbytes⟩ := ColorText.exists_webBytes_iff.mpr hdigits
    obtain ⟨red, green, blue, alpha, rfl⟩ := List.length_eq_four.mp hbytes.length_eq
    refine ⟨red, green, blue, alpha, hbytes, fun hsix => ⟨alpha, by simp, ?_⟩, fun hexceeds => ?_⟩
    · rw [hbytes.alpha_eq hsix]
      decide
    · refine ⟨_, (hcolor _).mpr ⟨red, green, blue, alpha, hbytes, rfl⟩, ?_⟩
      intro reading' operations' u' other h' hother
      have hraw := ColorText.isComponents_rgbaText red green blue alpha
      exact (Reading.resolvesTo_ofParts h' hother hraw).mpr (ColorText.webBytes_ofParts hbytes hexceeds)

/-- A web color, and its bytes as components. -/
def Reading.webColors : Reading :=
  ofSections { colors := ⟨[("brand", "web/1A3a5c"), ("plain", "rgba/26/58/92/255")], by decide⟩ }

/-- Digits in both cases, before and after the components. -/
theorem Reading.web_resolves_brand :
    ∃ u color, Operation.performAll { reading := webColors } [.call (.resolve .color "brand")] = .ok u ∧
      u.ResolvesTo .color "brand" color ∧ u.ResolvesTo .color "plain" color := by
  have hrun : ∃ u, Operation.performAll { reading := webColors } [.call (.resolve .color "brand")] = .ok u := by
    have hbrand : webColors.document.sections.colors.find? "brand" = some "web/1A3a5c" := rfl
    simp only [Operation.performAll, Operation.perform, bind, Except.bind, Call.run, resolve, resolve?, color,
      resolveColor_found hbrand, List.not_mem_nil, ↓reduceIte]
    exact ⟨_, rfl⟩
  obtain ⟨u, h⟩ := hrun
  have hbytes : ColorText.WebBytes [] "1A3a5c".toList [26, 58, 92, 255] := by
    have hletters : "1A3a5c".toList = ['1', 'A', '3', 'a', '5', 'c'] := rfl
    have hhex : ColorText.Hex ['1', 'A', '3', 'a', '5', 'c'] [1 * 16 + 10, 3 * 16 + 10, 5 * 16 + 12] :=
      .cons rfl rfl (.cons rfl rfl (.cons rfl rfl .nil))
    rw [hletters]
    exact ⟨_, hhex, .inl ⟨rfl, rfl⟩⟩
  obtain ⟨-, -, hsame⟩ := web_resolves_iff webColors _ u h "brand" "1A3a5c" (by decide) (by decide) rfl
  obtain ⟨red, green, blue, alpha, hbytes', hsix, hcolor⟩ := hsame (ColorText.exists_webBytes_iff.mp ⟨_, hbytes⟩)
  cases hbytes.unique hbytes'
  obtain ⟨color, hbrand, hplain⟩ := hcolor (hsix rfl)
  exact ⟨u, color, h, hbrand, hplain webColors _ u "plain" h rfl⟩

end DesignTokens
