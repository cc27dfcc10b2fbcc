import DesignTokens.Parameters
import DesignTokens.Proofs.Resolution.Request

/-!
# The calls of a document

A document is used through calls that resolve an entry, fetch one for another, check everything, look up an
entry that stands for itself, or read a parameter. Between calls it may be dumped, and its folder and fonts
may be changed.

Calls do not touch cells themselves. Whatever a call does, it gives notices and makes requests that come from
no computation; `Reading.Reaches` says that of two states, and facts about requests become facts about calls
by induction on it. A call that ends in a fault has got as far as its last request (`Reading.Stops`).

* `Call.run_requests`, `Call.runAll_requests` — every call, and every list of calls, is of that sort.
* `Operation.performAll_preserves` — what notices and requests preserve holds after every run of operations.
-/

namespace DesignTokens

open Resolve

/-- A typed reader of the value at a key path of a parameter. -/
inductive Reader where
  | object
  | string
  | number
  | integer
  | numbers (count : Option Int)
  | point
  | size
  | insets
  | color
  | assetName

namespace Accessor

/-- The accessor that a list of key paths leads to. -/
def descend (r : Reading) (a : Accessor) : List String → Resolve Accessor
  | [] => return a
  | keyPath :: rest => do (← a.accessor r keyPath).descend r rest

/-- Reads, and forgets the value. -/
def read (r : Reading) (a : Accessor) (keyPath : String) : Reader → Resolve Unit
  | .object => do let _ ← a.object keyPath
  | .string => do let _ ← a.string keyPath
  | .number => do let _ ← a.number r keyPath
  | .integer => do let _ ← a.integer r keyPath
  | .numbers count => do let _ ← a.numbers r keyPath count
  | .point => do let _ ← a.point r keyPath
  | .size => do let _ ← a.size r keyPath
  | .insets => do let _ ← a.insets r keyPath
  | .color => do let _ ← a.color r keyPath
  | .assetName => do let _ ← a.assetName keyPath

end Accessor

/-- A call that may resolve entries. -/
inductive Call where
  | resolve (a : Asset) (name : String)
  | fetch (kind : Kind) (name key : String) (user : Kind)
  | check
  | entry (kind : Kind) (name : String)
  | read (parameter : String) (indirect : Bool) (scopes : List String) (reader : Reader) (keyPath : String)

namespace Call

def run (r : Reading) : Call → Resolve Unit
  | .resolve a name => do let _ ← r.resolve a name
  | .fetch kind name key user => do let _ ← r.fetch kind name key user
  | .check => do let _ ← r.check Asset.all
  | .entry kind name => do let _ ← r.entry kind name
  | .read parameter indirect scopes reader keyPath => do
    match ← Accessor.ofName r parameter indirect with
    | none => return
    | some a => (← a.descend r scopes).read r keyPath reader

/-- Calls one after the other. -/
def runAll (r : Reading) : List Call → Resolve Unit
  | [] => return
  | call :: rest => do
    call.run r
    runAll r rest

end Call

/-- A document in use. -/
structure Usage where
  reading : Reading
  progress : Progress := {}

/-- What may happen to a document in use. Files may change at any time. -/
inductive Operation where
  | call (call : Call)
  | dump (indent : Option Nat)
  | setStorage (storage : Path)
  | setCatalog (catalog : Catalog)
  | changeFiles (files : Files)

namespace Operation

def perform (u : Usage) : Operation → Except Fault Usage
  | .call c =>
    match c.run u.reading u.progress with
    | .ok _ progress => .ok { u with progress }
    | .error fault _ => .error fault
  | .dump indent => (u.reading.document.dump indent).map fun _ => u
  | .setStorage storage => .ok { u with reading.surroundings.storage := some storage }
  | .setCatalog catalog => .ok { u with reading.surroundings.catalog := catalog }
  | .changeFiles files => .ok { u with reading.surroundings.files := files }

/-- Operations one after the other. -/
def performAll (u : Usage) : List Operation → Except Fault Usage
  | [] => .ok u
  | operation :: rest => do performAll (← operation.perform u) rest

end Operation

namespace Reading

/-- The states that notices and requests lead to. -/
inductive Reaches (r : Reading) : Progress → Progress → Prop where
  | refl (p : Progress) : Reaches r p p
  | notice {p p' : Progress} (n : Notice) (h : Reaches r (p.record (.noticed n)) p') : Reaches r p p'
  | request {p p' p'' : Progress} {a : Asset} {name : String} {x : Option a.Value}
      (hrequest : r.resolve? a name p = .ok x p') (h : Reaches r p' p'') : Reaches r p p''

theorem Reaches.trans {r : Reading} {p p' p'' : Progress} (h : r.Reaches p p') (h' : r.Reaches p' p'') :
    r.Reaches p p'' := by
  induction h with
  | refl p => exact h'
  | notice n _ ih => exact .notice n (ih h')
  | request hrequest _ ih => exact .request hrequest (ih h')

/-- The states that notices and requests leave when a fault ends them. -/
def Stops (r : Reading) (p p' : Progress) : Prop :=
  ∃ p₁, r.Reaches p p₁ ∧ (p' = p₁ ∨ ∃ a name fault, r.resolve? a name p₁ = .error fault p')

theorem Reaches.stops {r : Reading} {p p' p'' : Progress} (h : r.Reaches p p') (h' : r.Stops p' p'') :
    r.Stops p p'' := by
  obtain ⟨p₁, hreaches, hlast⟩ := h'
  exact ⟨p₁, h.trans hreaches, hlast⟩

/-- A computation that gives notices and makes requests, and nothing else. -/
structure Requests (r : Reading) {α : Type} (f : Resolve α) : Prop where
  ok : ∀ ⦃p x p'⦄, f p = .ok x p' → r.Reaches p p'
  error : ∀ ⦃p fault p'⦄, f p = .error fault p' → r.Stops p p'

namespace Requests

variable {r : Reading} {α β : Type}

theorem pure {value : α} : r.Requests (pure value) where
  ok p x p' h := by
    cases h
    exact .refl p
  error p fault p' h := by cases h

theorem throw {fault : Fault} : r.Requests (throw fault : Resolve α) where
  ok p x p' h := by cases h
  error p fault p' h := by
    cases h
    exact ⟨p, .refl p, .inl rfl⟩

theorem warn {notice : Notice} : r.Requests (Resolve.warn notice) where
  ok p x p' h := by
    cases h
    exact .notice notice (.refl _)
  error p fault p' h := by cases h

theorem bind {f : Resolve α} {g : α → Resolve β} (hf : r.Requests f) (hg : ∀ x, r.Requests (g x)) :
    r.Requests (f >>= g) where
  ok p y p'' h := by
    obtain ⟨x, p', hfirst, hrest⟩ := bind_eq_ok_iff.mp h
    exact (hf.ok hfirst).trans ((hg x).ok hrest)
  error p fault p'' h := by
    rcases bind_eq_error_iff.mp h with hfirst | ⟨x, p', hfirst, hrest⟩
    · exact hf.error hfirst
    · exact (hf.ok hfirst).stops ((hg x).error hrest)

theorem reject {notice : Notice} : r.Requests (Resolve.reject notice : Resolve (Option α)) :=
  warn.bind fun _ => pure

theorem lift {e : Except Fault α} : r.Requests (Resolve.lift e) := by
  cases e with
  | ok value => exact pure
  | error fault => exact throw

theorem cell {a : Asset} {name : String} : r.Requests (Resolve.cell a name) where
  ok p x p' h := by
    cases h
    exact .refl p
  error p fault p' h := by cases h

theorem resolve? {a : Asset} {name : String} : r.Requests (r.resolve? a name) where
  ok _ _ p' h := .request h (.refl p')
  error p fault _ h := ⟨p, .refl p, .inr ⟨a, name, fault, h⟩⟩

theorem run {asks : Asset → Prop} {t : Inquiry α} (ht : t.Within asks fun _ _ => False) :
    r.Requests (t.run r.resolve?) := by
  induction t with
  | done value => exact pure
  | fail fault => exact throw
  | note notice rest ih => exact warn.bind fun _ => ih ht
  | use a name dependencies rest ih => exact ht.1.elim
  | ask a name next ih =>
    exact (resolve?.bind fun _ => cell.bind fun _ => pure).bind fun x => ih x (ht.2 x)

/-- An inquiry that writes to no cell requests what it asks about. -/
theorem of_inquires {asks : Asset → Prop} {before : Prop} {good : α → Prop} {f : Resolvers → Resolve α}
    (h : Inquires asks (fun _ _ => False) before good f) : r.Requests (f r.resolve?) := by
  obtain ⟨t, hrun, hwithin, -⟩ := h
  rw [hrun]
  exact run hwithin

end Requests

/-! ### What calls do -/

section Calls

variable (r : Reading)

theorem metric_resolve? : Resolvers.metric r.resolve? = r.metricLookup := by
  rw [Resolvers.metric_eq]
  rfl

theorem resolve_requests (a : Asset) (name : String) : r.Requests (r.resolve a name) := by
  refine Requests.resolve?.bind fun x => ?_
  cases x with
  | some value => exact .pure
  | none => exact Requests.warn.bind fun _ => .pure

theorem fetch_asset_requests (a : Asset) (name key : String) (user : Kind) :
    r.Requests (DesignTokens.fetch a (r.resolve? a) name key user) := by
  have h : Inquires (fun _ => True) (fun _ _ => False) True (fun x : Option a.Value => True ∧ x.isSome = true)
      fun q => DesignTokens.fetch a (q a) name key user := .fetch trivial
  exact .of_inquires h

theorem fetch_requests (kind : Kind) (name key : String) (user : Kind) :
    r.Requests (r.fetch kind name key user) := by
  unfold fetch
  split
  · exact (r.fetch_asset_requests ..).bind fun _ => .pure
  · split
    · exact .reject
    · exact .reject

theorem entry_requests (kind : Kind) (name : String) : r.Requests (r.entry kind name) := by
  unfold entry
  split
  · exact .pure
  · exact .reject

theorem checkNames_requests (a : Asset) (names : List String) : r.Requests (r.checkNames a names) := by
  induction names with
  | nil => exact .pure
  | cons name rest ih =>
    exact Requests.resolve?.bind fun _ => Requests.cell.bind fun _ => ih.bind fun _ => .pure

theorem check_requests (assets : List Asset) : r.Requests (r.check assets) := by
  induction assets with
  | nil => exact .pure
  | cons a rest ih => exact (r.checkNames_requests ..).bind fun _ => ih.bind fun _ => .pure

theorem follow_requests (parameters : Mapping Json) (seen : List String) (value : Json) :
    r.Requests (follow parameters seen value) := by
  fun_induction follow parameters seen value with
  | case1 => exact .pure
  | case2 => exact Requests.warn.bind fun _ => .pure
  | case3 _ _ _ _ _ ih => exact ih
  | case4 => exact .pure

end Calls

end Reading

namespace Accessor

variable (r : Reading)

theorem ofName_requests (name : String) (indirect : Bool) : r.Requests (ofName r name indirect) := by
  unfold ofName
  dsimp only
  split
  · exact .reject
  · refine Reading.Requests.bind ?_ fun _ => .pure
    split
    · exact r.follow_requests ..
    · exact .pure

theorem object_requests (a : Accessor) (keyPath : String) : r.Requests (a.object keyPath) :=
  Reading.Requests.lift.bind fun _ => .pure

theorem string_requests (a : Accessor) (keyPath : String) : r.Requests (a.string keyPath) := by
  refine (object_requests r a keyPath).bind fun value => ?_
  split <;> exact .pure

theorem number_requests (a : Accessor) (keyPath : String) : r.Requests (a.number r keyPath) := by
  refine (object_requests r a keyPath).bind fun value => ?_
  split
  · exact .pure
  · have h : Inquires (fun _ => True) (fun _ _ => False) True
        (fun x : Option (Float × List Dependency) => True ∧ x.isSome = true)
        fun q => Metric.extractOneJson q.metric (a.expecting keyPath) value :=
      Metric.extractOneJson_inquires trivial ..
    refine Reading.Requests.bind ?_ fun _ => .pure
    simpa only [Reading.metric_resolve?] using Reading.Requests.of_inquires (r := r) h

theorem integer_requests (a : Accessor) (keyPath : String) : r.Requests (a.integer r keyPath) := by
  refine (number_requests r a keyPath).bind fun value => ?_
  split
  · exact .pure
  · exact Reading.Requests.lift.bind fun _ => .pure

theorem numbers_requests (a : Accessor) (keyPath : String) (count : Option Int) :
    r.Requests (a.numbers r keyPath count) := by
  refine (object_requests r a keyPath).bind fun value => ?_
  split
  · exact .pure
  · have h : Inquires (fun _ => True) (fun _ _ => False) True
        (fun x : Option Extraction => True ∧ x.isSome = true)
        fun q => Metric.extractJson q.metric (a.expecting keyPath) value count :=
      Metric.extractJson_inquires trivial ..
    refine Reading.Requests.bind ?_ fun _ => .pure
    simpa only [Reading.metric_resolve?] using Reading.Requests.of_inquires (r := r) h

theorem color_requests (a : Accessor) (keyPath : String) : r.Requests (a.color r keyPath) := by
  refine (string_requests r a keyPath).bind fun value => ?_
  split
  · exact .pure
  · exact r.fetch_asset_requests .color ..

theorem read_requests (a : Accessor) (keyPath : String) (reader : Reader) :
    r.Requests (a.read r keyPath reader) := by
  cases reader with
  | object => exact (object_requests r a keyPath).bind fun _ => .pure
  | string => exact (string_requests r a keyPath).bind fun _ => .pure
  | number => exact (number_requests r a keyPath).bind fun _ => .pure
  | integer => exact (integer_requests r a keyPath).bind fun _ => .pure
  | numbers count => exact (numbers_requests r a keyPath count).bind fun _ => .pure
  | point =>
    refine ((numbers_requests r a keyPath (some 2)).bind fun values => ?_).bind fun _ => .pure
    split <;> exact .pure
  | size =>
    refine ((numbers_requests r a keyPath (some 2)).bind fun values => ?_).bind fun _ => .pure
    split <;> exact .pure
  | insets => exact ((numbers_requests r a keyPath (some 4)).bind fun _ => .pure).bind fun _ => .pure
  | color => exact (color_requests r a keyPath).bind fun _ => .pure
  | assetName => exact (string_requests r a keyPath).bind fun _ => .pure

theorem accessor_requests (a : Accessor) (keyPath : String) : r.Requests (a.accessor r keyPath) := by
  unfold accessor
  split
  · exact .pure
  · refine (string_requests r a keyPath).bind fun name => ?_
    split
    · exact .pure
    · split
      · exact .pure
      · exact (r.follow_requests ..).bind fun _ => .pure

theorem descend_requests (a : Accessor) (keyPaths : List String) : r.Requests (a.descend r keyPaths) := by
  induction keyPaths generalizing a with
  | nil => exact .pure
  | cons keyPath rest ih => exact (accessor_requests r a keyPath).bind fun b => ih b

end Accessor

namespace Call

theorem run_requests (r : Reading) (call : Call) : r.Requests (call.run r) := by
  cases call with
  | resolve a name => exact (r.resolve_requests ..).bind fun _ => .pure
  | fetch kind name key user => exact (r.fetch_requests ..).bind fun _ => .pure
  | check => exact (r.check_requests _).bind fun _ => .pure
  | entry kind name => exact (r.entry_requests ..).bind fun _ => .pure
  | read parameter indirect scopes reader keyPath =>
    refine (Accessor.ofName_requests r ..).bind fun found => ?_
    cases found with
    | none => exact .pure
    | some a => exact (Accessor.descend_requests r a scopes).bind fun b => Accessor.read_requests r b ..

theorem runAll_requests (r : Reading) (calls : List Call) : r.Requests (runAll r calls) := by
  induction calls with
  | nil => exact .pure
  | cons call rest ih => exact (call.run_requests r).bind fun _ => ih

end Call

/-! ### What operations preserve -/

/-- Notices and requests preserve a property of states, whatever the surroundings of the document are. -/
structure Document.Preserves (d : Document) (Q : Progress → Prop) : Prop where
  notice : ∀ (p : Progress) (n : Notice), Q p → Q (p.record (.noticed n))
  request : ∀ (r : Reading) (a : Asset) (name : String) (p p' : Progress) (x : Option a.Value),
    r.document = d → Q p → r.resolve? a name p = .ok x p' → Q p'

section Preserves

variable {d : Document} {Q : Progress → Prop}

theorem Document.Preserves.reaches (h : d.Preserves Q) {r : Reading} {p p' : Progress} (hd : r.document = d)
    (hreaches : r.Reaches p p') (hq : Q p) : Q p' := by
  induction hreaches with
  | refl p => exact hq
  | notice n _ ih => exact ih (h.notice _ n hq)
  | request hrequest _ ih => exact ih (h.request r _ _ _ _ _ hd hq hrequest)

namespace Operation

theorem perform_preserves (h : d.Preserves Q) {operation : Operation} {u u' : Usage} (hd : u.reading.document = d)
    (hperform : operation.perform u = .ok u') (hq : Q u.progress) :
    u'.reading.document = d ∧ Q u'.progress := by
  cases operation with
  | call c =>
    simp only [perform] at hperform
    cases hrun : c.run u.reading u.progress with
    | error fault p => simp [hrun] at hperform
    | ok x p =>
      rw [hrun] at hperform
      cases hperform
      exact ⟨hd, h.reaches hd ((c.run_requests u.reading).ok hrun) hq⟩
  | dump indent =>
    simp only [perform] at hperform
    cases hdump : u.reading.document.dump indent with
    | error fault => simp [hdump, Except.map] at hperform
    | ok text =>
      rw [hdump] at hperform
      cases hperform
      exact ⟨hd, hq⟩
  | setStorage storage => cases hperform; exact ⟨hd, hq⟩
  | setCatalog catalog => cases hperform; exact ⟨hd, hq⟩
  | changeFiles files => cases hperform; exact ⟨hd, hq⟩

/-- What notices and requests preserve is preserved by every run of operations, and so is the document. -/
theorem performAll_preserves (h : d.Preserves Q) {operations : List Operation} {u u' : Usage}
    (hd : u.reading.document = d) (hperform : performAll u operations = .ok u') (hq : Q u.progress) :
    u'.reading.document = d ∧ Q u'.progress := by
  induction operations generalizing u with
  | nil => cases hperform; exact ⟨hd, hq⟩
  | cons operation rest ih =>
    cases hfirst : operation.perform u with
    | error fault => simp [performAll, hfirst, bind, Except.bind] at hperform
    | ok v =>
      simp only [performAll, hfirst, bind, Except.bind] at hperform
      obtain ⟨hd₁, hq₁⟩ := perform_preserves h hd hfirst hq
      exact ih hd₁ hperform hq₁

end Operation

end Preserves

end DesignTokens
