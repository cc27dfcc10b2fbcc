import Mathlib.Data.List.Chain
import DesignTokens.Parameters
import DesignTokens.Proofs.Resolution.Request

/-!
# Where redirections of parameters end

A parameter whose value is the name of a parameter redirects to that one. Each parameter redirects to one other at most,
so from a given name there is one path to follow. It may stop at a parameter that does not redirect, or run into a loop,
which need not go through the name it started from.

`followVisited` follows redirections as `follow` does and also tells the names that it went to. No name is gone to
twice: the names are a stretch of the path without repetition (`Trail`). Where the path runs into a loop, the last name
of the stretch redirects back to a name of the stretch, so it is on the loop itself.

* `Trail.of_followVisited` — what following redirections goes through, and what it warns of.
* `Trail.ends_or_loops`, `Redirects.not_rests_of_loop` — a path runs into a loop or stops, not both.
* `Accessor.redirections_end` — the accessor at the end of redirections.
-/

namespace DesignTokens

open Resolve

/-! ### The path of redirections -/

section Path

variable {parameters : Mapping Json} {name other third : String}

/-- The value of one parameter is the name of another. -/
def Redirects (parameters : Mapping Json) (name other : String) : Prop :=
  parameters.find? name = some (.string other) ∧ (parameters.find? other).isSome

/-- There is a parameter under a name, and its value is not the name of a parameter. -/
def Rests (parameters : Mapping Json) (name : String) : Prop :=
  ∃ value, parameters.find? name = some value ∧ redirection? parameters value = none

theorem Redirects.rightUnique (parameters : Mapping Json) : Relator.RightUnique (Redirects parameters) := by
  rintro name other third ⟨hother, -⟩ ⟨hthird, -⟩
  rw [hother] at hthird
  cases hthird
  rfl

theorem Redirects.not_rests (h : Redirects parameters name other) : ¬ Rests parameters name := by
  rintro ⟨value, hvalue, hnone⟩
  rw [h.1] at hvalue
  cases hvalue
  obtain ⟨next, hnext⟩ := Option.isSome_iff_exists.1 h.2
  simp [redirection?, hnext] at hnone

/-- A parameter that does not redirect leads nowhere else. -/
theorem Rests.eq_of_leads (h : Rests parameters name)
    (hleads : Relation.ReflTransGen (Redirects parameters) name other) : other = name := by
  rcases Relation.ReflTransGen.cases_head hleads with heq | ⟨next, hstep, -⟩
  · exact heq.symm
  · exact absurd h hstep.not_rests

/-- From one name there is a way to one parameter at most that does not redirect. -/
theorem Rests.eq_of_both_lead (hother : Rests parameters other)
    (hleads : Relation.ReflTransGen (Redirects parameters) name other) (hthird : Rests parameters third)
    (hleads' : Relation.ReflTransGen (Redirects parameters) name third) : other = third := by
  rcases Relation.ReflTransGen.total_of_right_unique (Redirects.rightUnique parameters) hleads hleads' with hto | hback
  · exact (hother.eq_of_leads hto).symm
  · exact hthird.eq_of_leads hback

/-- Whatever a loop leads to is on the loop. -/
theorem Redirects.loop_of_leads (hloop : Relation.TransGen (Redirects parameters) name name)
    (hleads : Relation.ReflTransGen (Redirects parameters) name other) :
    Relation.TransGen (Redirects parameters) other other := by
  induction hleads with
  | refl => exact hloop
  | tail _ hstep ih =>
    obtain ⟨next, hnext, hback⟩ := Relation.TransGen.head'_iff.1 ih
    obtain rfl := rightUnique parameters hnext hstep
    exact Relation.TransGen.tail' hback hstep

/-- From one name there is no way both to a loop and to a parameter that does not redirect. -/
theorem Redirects.not_rests_of_loop (hleads : Relation.ReflTransGen (Redirects parameters) name other)
    (hloop : Relation.TransGen (Redirects parameters) other other)
    (hthird : Relation.ReflTransGen (Redirects parameters) name third) : ¬ Rests parameters third := by
  intro hrests
  have hends : Relation.TransGen (Redirects parameters) third third := by
    rcases Relation.ReflTransGen.total_of_right_unique (rightUnique parameters) hleads hthird with hto | hback
    · exact loop_of_leads hloop hto
    · exact hrests.eq_of_leads hback ▸ hloop
  obtain ⟨next, hnext, -⟩ := Relation.TransGen.head'_iff.1 hends
  exact hnext.not_rests hrests

end Path

/-! ### The names gone to -/

/-- Following redirections as `follow` does, with the names that were gone to on the way. -/
def followVisited (parameters : Mapping Json) (seen : List String) (value : Json) : Resolve (List String × Json) :=
  match value with
  | .string name =>
    match _hfound : parameters.find? name with
    | none => return ([], value)
    | some next =>
      if _hseen : name ∈ seen then do
        warn (.redirectionLoop name)
        return ([], value)
      else do
        let (later, final) ← followVisited parameters (name :: seen) next
        return (name :: later, final)
  | value => return ([], value)
termination_by parameters.idle seen
decreasing_by exact Mapping.idle_cons_lt _hfound _hseen

theorem follow_eq_followVisited (parameters : Mapping Json) (seen : List String) (value : Json) :
    follow parameters seen value = Prod.snd <$> followVisited parameters seen value := by
  fun_induction followVisited parameters seen value with
  | case1 seen name hnone =>
    rw [follow_value (by simp [redirection?, hnone])]
    rfl
  | case2 seen name next hfound hseen =>
    unfold follow
    split
    · simp_all
    · rw [dif_pos hseen]
      rfl
  | case3 seen name next hfound hnew ih =>
    unfold follow
    split
    · simp_all
    · next other hother =>
      rw [hfound] at hother
      cases hother
      rw [dif_neg hnew, ih, map_bind, map_eq_pure_bind]
      rfl
  | case4 seen value hnot =>
    rw [follow_value (by cases value <;> first | rfl | exact absurd rfl (hnot _))]
    rfl

/-- What is gone through from the parameter under a name: other names, none of them twice and none that was seen
before, up to the last one, whose value is the final one. -/
structure Trail (parameters : Mapping Json) (seen : List String) (name : String) (visited : List String)
    (last : String) (final : Json) : Prop where
  chain : (name :: visited).IsChain (Redirects parameters)
  nodup : visited.Nodup
  fresh : ∀ other ∈ visited, other ∉ seen
  ends : (name :: visited).getLast? = some last
  found : parameters.find? last = some final

namespace Trail

variable {parameters : Mapping Json} {seen visited : List String} {name other last : String} {value final : Json}

/-- A trail that goes nowhere. -/
theorem nil (hfound : parameters.find? name = some value) : Trail parameters seen name [] name value where
  chain := .singleton _
  nodup := .nil
  fresh := List.forall_mem_nil _
  ends := rfl
  found := hfound

theorem cons (hstep : Redirects parameters name other) (hnew : other ∉ seen)
    (h : Trail parameters (other :: seen) other visited last final) :
    Trail parameters seen name (other :: visited) last final where
  chain := .cons_cons hstep h.chain
  nodup := by
    refine List.nodup_cons.2 ⟨fun hmem => ?_, h.nodup⟩
    exact h.fresh other hmem List.mem_cons_self
  fresh := by
    intro third hthird
    rcases List.mem_cons.1 hthird with rfl | hlater
    · exact hnew
    · exact fun hseen => h.fresh third hlater (List.mem_cons_of_mem _ hseen)
  ends := by rw [List.getLast?_cons_cons, h.ends]
  found := h.found

/-- Every name of a trail leads to the last one. -/
theorem leads_last (h : Trail parameters seen name visited last final) (hmem : other ∈ name :: visited) :
    Relation.ReflTransGen (Redirects parameters) other last := by
  obtain ⟨before, after, hsplit⟩ := List.append_of_mem hmem
  have hchain : (other :: after).IsChain (Redirects parameters) := by
    have hwhole := h.chain
    rw [hsplit] at hwhole
    exact hwhole.right_of_append
  have hlast : (other :: after).getLast? = some last := by
    have hwhole := h.ends
    rwa [hsplit, List.getLast?_append_cons] at hwhole
  refine List.relationReflTransGen_of_exists_isChain_cons after hchain ?_
  exact Option.some.inj ((List.getLast?_eq_some_getLast _).symm.trans hlast)

/-- How following redirections ends: with a value that names no parameter, and nothing else has happened; or with one
that names a parameter seen or gone to before, and this is warned of. -/
def Ended (parameters : Mapping Json) (seen visited : List String) (last : String) (final : Json)
    (p p' : Progress) : Prop :=
  redirection? parameters final = none ∧ p' = p ∨
    ∃ first, Redirects parameters last first ∧ (first ∈ seen ∨ first ∈ visited) ∧
      p' = p.record (.noticed (.redirectionLoop first))

/-- The last name of a trail from the only name seen does not redirect, or is on a loop. -/
theorem ends_or_loops {p p' : Progress} (h : Trail parameters [name] name visited last final)
    (hended : Ended parameters [name] visited last final p p') :
    Rests parameters last ∧ p' = p ∨
      Relation.TransGen (Redirects parameters) last last ∧
        ∃ loop, Redirects parameters last loop ∧ p' = p.record (.noticed (.redirectionLoop loop)) := by
  rcases hended with ⟨hnone, hp⟩ | ⟨first, hback, hmet, hp⟩
  · exact .inl ⟨⟨final, h.found, hnone⟩, hp⟩
  · have hmem : first ∈ name :: visited := by simpa using hmet
    exact .inr ⟨Relation.TransGen.head' hback (h.leads_last hmem), first, hback, hp⟩

/-- Following redirections goes along a trail. -/
theorem of_followVisited (seen : List String) (hfound : parameters.find? name = some value) (p : Progress) :
    ∃ visited last final p', followVisited parameters seen value p = .ok (visited, final) p' ∧
      Trail parameters seen name visited last final ∧ Ended parameters seen visited last final p p' := by
  fun_induction followVisited parameters seen value generalizing name with
  | case1 seen other hnone =>
    exact ⟨[], name, .string other, p, rfl, nil hfound, .inl ⟨by simp [redirection?, hnone], rfl⟩⟩
  | case2 seen other next hnext hseen =>
    have hback : Redirects parameters name other := ⟨hfound, by simp [hnext]⟩
    exact ⟨[], name, .string other, _, rfl, nil hfound, .inr ⟨other, hback, .inl hseen, rfl⟩⟩
  | case3 seen other next hnext hnew ih =>
    obtain ⟨visited, last, final, p', hrun, htrail, hends⟩ := ih hnext
    refine ⟨other :: visited, last, final, p', ?_, htrail.cons ⟨hfound, by simp [hnext]⟩ hnew, ?_⟩
    · rw [bind_of_ok hrun]
      rfl
    · rcases hends with hrest | ⟨first, hback, hmet, hp⟩
      · exact .inl hrest
      · refine .inr ⟨first, hback, ?_, hp⟩
        simp only [List.mem_cons] at hmet ⊢
        tauto
  | case4 seen value hnot =>
    refine ⟨[], name, value, p, rfl, nil hfound, .inl ⟨?_, rfl⟩⟩
    cases value <;> first | rfl | exact absurd rfl (hnot _)

end Trail

/-! ### The accessor at the end of redirections -/

namespace Accessor

variable {r : Reading} {name : String} {value : Json}

/-- The accessor of a parameter is at the end of its redirections. -/
theorem ofName_redirected (hfound : r.document.sections.parameters.find? name = some value) :
    ofName r name true = do
      let final ← follow r.document.sections.parameters [name] value
      return some { value := final } := by
  simp only [ofName, hfound, if_true]

/-- A text that is the name of a parameter is left for the end of the redirections from there. -/
theorem accessor_redirected {a : Accessor} {keyPath : String} (hpath : keyPath ≠ "")
    (hleaf : KeyPath.valueAt a.value (a.path keyPath) = .ok (some (.string name)))
    (hfound : r.document.sections.parameters.find? name = some value) :
    a.accessor r keyPath = do
      let final ← follow r.document.sections.parameters [name] value
      return { value := final } := by
  have hempty : keyPath.isEmpty = false := by simpa using hpath
  have hstring : a.string keyPath = pure (some name) := by
    simp only [string, object, hleaf]
    rfl
  rw [accessor, hempty, if_neg Bool.false_ne_true, hstring]
  simp only [pure_bind, hfound]

/-- Redirections from a parameter are followed along names of which none comes twice. If the path from there reaches a
parameter that does not redirect, then that one is the result, and nothing is warned of. Otherwise the result is a
parameter on the loop that the path runs into, and there is one warning, which tells where it would go on. Both hold
whether the parameter was asked for by its name or met as the text at a key path. -/
theorem redirections_end (r : Reading) (name : String) (value : Json)
    (hfound : r.document.sections.parameters.find? name = some value) (p : Progress) :
    let parameters := r.document.sections.parameters
    ∃ visited last final p', followVisited parameters [name] value p = .ok (visited, final) p' ∧
      follow parameters [name] value p = .ok final p' ∧
      (name :: visited).Nodup ∧
      (name :: visited).IsChain (Redirects parameters) ∧
      (name :: visited).getLast? = some last ∧
      parameters.find? last = some final ∧
      ofName r name true p = .ok (some { value := final }) p' ∧
      (∀ (a : Accessor) (keyPath : String), keyPath ≠ "" →
        KeyPath.valueAt a.value (a.path keyPath) = .ok (some (.string name)) →
        a.accessor r keyPath p = .ok { value := final } p') ∧
      (∀ stop, Relation.ReflTransGen (Redirects parameters) name stop → Rests parameters stop →
        last = stop ∧ p' = p) ∧
      ((∀ stop, Relation.ReflTransGen (Redirects parameters) name stop → ¬ Rests parameters stop) →
        Relation.TransGen (Redirects parameters) last last ∧
          ∃ loop, Redirects parameters last loop ∧ p' = p.record (.noticed (.redirectionLoop loop))) := by
  intro parameters
  obtain ⟨visited, last, final, p', hrun, htrail, hends⟩ := Trail.of_followVisited [name] hfound p
  have hfollow : follow parameters [name] value p = .ok final p' := by
    rw [follow_eq_followVisited, map_eq_pure_bind, bind_of_ok hrun]
    rfl
  have hleads : Relation.ReflTransGen (Redirects parameters) name last := htrail.leads_last List.mem_cons_self
  refine ⟨visited, last, final, p', hrun, hfollow, ?_, htrail.chain, htrail.ends, htrail.found, ?_, ?_, ?_, ?_⟩
  · exact List.nodup_cons.2 ⟨fun hmem => htrail.fresh name hmem List.mem_cons_self, htrail.nodup⟩
  · rw [ofName_redirected hfound, bind_of_ok hfollow]
    rfl
  · intro a keyPath hpath hleaf
    rw [accessor_redirected hpath hleaf hfound, bind_of_ok hfollow]
    rfl
  · intro stop hstop hrests
    rcases htrail.ends_or_loops hends with ⟨hlast, hp⟩ | ⟨hloop, -⟩
    · exact ⟨hlast.eq_of_both_lead hleads hrests hstop, hp⟩
    · exact absurd hrests (Redirects.not_rests_of_loop hleads hloop hstop)
  · intro hnone
    rcases htrail.ends_or_loops hends with ⟨hlast, -⟩ | hloops
    · exact absurd hlast (hnone last hleads)
    · exact hloops

/-- Two parameters that redirect to each other, and one that leads to them. -/
def tangledParameters : Reading where
  document := {
    version := none
    sections := {
      parameters := ⟨[("start", .string "north"), ("north", .string "south"), ("south", .string "north")],
        (by decide : ["start", "north", "south"].Nodup)⟩ }
    hasEmptyGroups := false }
  surroundings := { storage := none, catalog := .builtIn, files := .empty }

/-- The loop is told of once, although the parameter asked for is not on it. -/
theorem redirections_end_tangled :
    ∃ last final loop, tangledParameters.document.sections.parameters.find? last = some final ∧
      Relation.TransGen (Redirects tangledParameters.document.sections.parameters) last last ∧
      ofName tangledParameters "start" true {} =
        .ok (some { value := final }) (({} : Progress).record (.noticed (.redirectionLoop loop))) := by
  have hnorth : Redirects tangledParameters.document.sections.parameters "north" "south" := ⟨rfl, rfl⟩
  have hsouth : Redirects tangledParameters.document.sections.parameters "south" "north" := ⟨rfl, rfl⟩
  have hstart : Redirects tangledParameters.document.sections.parameters "start" "north" := ⟨rfl, rfl⟩
  obtain ⟨-, last, final, p', -, -, -, -, -, hlast, hname, -, -, hloops⟩ :=
    redirections_end tangledParameters "start" (.string "north") rfl {}
  obtain ⟨hloop, loop, -, rfl⟩ := hloops fun _ =>
    Redirects.not_rests_of_loop (.single hstart) (.head hnorth (.single hsouth))
  exact ⟨last, final, loop, hlast, hloop, hname⟩

end Accessor

end DesignTokens
