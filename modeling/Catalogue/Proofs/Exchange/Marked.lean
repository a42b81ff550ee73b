import Catalogue.Proofs.Exchange.Contribution
import Catalogue.Proofs.Exchange.Fields
import Catalogue.Proofs.Exchange.Markings
import Catalogue.Proofs.Exchange.Traversal

/-!
# Markings on a walk

A marking is read at a leaf of its name whose nearest entity holds markings, outside associations.
A decoded record has under the key of a marking what the markings on its walk amount to, and
nothing else is written there.

* `Visit.marked?` — the text of a marking that is read at a visit.
* `filterMap_mark?_textOf?` — the markings contributed on a walk are those read on it.
* `marking_of_decode` — the marking of a decoded record is that of its descriptor.
-/

namespace Catalogue.Exchange

open Catalogue.Schema (Entity)

/-- The text of a marking, if it is of the kind. -/
def textOf? (m : Marking) (x : Marking × String) : Option String :=
  if x.1 = m then some x.2 else none

/-- The text of a marking that is read at a visit: that of a leaf with the name of the marking
whose nearest entity holds markings, outside associations. -/
def Visit.marked? (m : Marking) : Visit → Option String
  | .entity _ _ => none
  | .leaf n scope =>
    if scope.inAssociation = false ∧ n.name = m.name ∧
        (scope.entity = some Entity.security.name ∨
          scope.entity = some Entity.metadataSecurity.name) then
      n.value.bind Graph.Value.text?
    else none

/-- A marking is contributed exactly by the leaves that one is read at. -/
theorem contribution_marked (m : Marking) (scope : Scope) (name : String) (v : Graph.Value) :
    (contribution scope name v).mark?.bind (textOf? m) =
      if scope.inAssociation = false ∧ name = m.name ∧
        (scope.entity = some Entity.security.name ∨
          scope.entity = some Entity.metadataSecurity.name) then v.text? else none := by
  split
  · next h =>
    obtain ⟨hscope, rfl, hentity⟩ := h
    have hread : ∃ e, contribution scope m.name v = readMarking e m.name v := by
      rcases hentity with hentity | hentity <;> simp only [contribution, hentity, hscope]
      · exact ⟨.security, rfl⟩
      · exact ⟨.metadataSecurity, rfl⟩
    obtain ⟨e, hread⟩ := hread
    have hname : Marking.ofName? m.name = some m := by cases m <;> rfl
    rw [hread, readMarking, hname]
    cases v.text? with
    | none => rfl
    | some s => exact if_pos rfl
  · next h =>
    have hr := contributes_contribution scope name v
    generalize contribution scope name v = r at hr
    cases hr with
    | mark e k s hscope hentity hmarkings hk htext =>
      have hname : k.name = name := Marking.name_of_ofName? hk
      have hgetD : e.name = scope.entity.getD "" :=
        (Entity.ofName?_eq_some_iff.mp hentity).symm
      have hsome : scope.entity = some e.name := by
        cases hscope : scope.entity with
        | none =>
          rw [hscope] at hgetD
          cases e <;> exact absurd hgetD (by decide)
        | some name => rw [hgetD, hscope]; rfl
      refine if_neg fun hkind : k = m => h ⟨hscope, ?_, ?_⟩
      · rw [← hname, hkind]
      · cases e
        case security => exact .inl hsome
        case metadataSecurity => exact .inr hsome
        all_goals cases hmarkings
    | _ => rfl

theorem filterMap_mark?_textOf? (m : Marking) (vs : List Visit) :
    ((readings vs).filterMap Reading.mark?).filterMap (textOf? m) =
      vs.filterMap (Visit.marked? m) := by
  rw [readings, List.filterMap_filterMap, List.filterMap_filterMap]
  refine List.filterMap_congr fun v _ => ?_
  cases v with
  | entity => rfl
  | leaf n scope =>
    rw [Visit.reading?, Visit.marked?]
    cases n.value with
    | none => simp
    | some w => exact contribution_marked m scope n.name w

variable {mode : Narrowing}

/-- The descriptor after a walk is that of the markings read on it, and no value is written under
the key of a marking. -/
theorem markings_of_follow {vs : List Visit} {d : Draft}
    (h : (Draft.follow mode {} vs).result = .ok d) :
    d.markings =
        ((readings vs).filterMap Reading.mark?).foldl (fun d m => d.fold mode m.1 m.2) {} ∧
      ∀ m : Marking, d.record.get? m.key = none := by
  rw [Draft.follow_result] at h
  split at h
  · cases h
  · obtain rfl := Except.ok.inj h
    refine ⟨rfl, fun m => ?_⟩
    refine get?_setAll_of_not_mem fun w hw hkey => ?_
    obtain ⟨r, hr, hwrite⟩ := List.mem_filterMap.mp hw
    obtain ⟨n, scope, v, -, hcontributes⟩ := exists_contributes hr
    cases hcontributes with
    | location w' =>
      obtain rfl := Option.some.inj hwrite
      exact locationKey_ne m hkey
    | field e k w' _ hk =>
      obtain rfl := Option.some.inj hwrite
      exact marking_key_ne hk m hkey
    | _ => cases hwrite

/-- The marking of a decoded record is that of its descriptor. -/
theorem marking_of_decode {g : Graph} {t : Graph.Topology} (ht : g.topology = .ok t)
    {fallback : String} {r : Record} (h : (decode fallback mode g).result = .ok r) (m : Marking) :
    ∃ d, (Draft.follow mode {} (visits t)).result = .ok d ∧
      r.text? m.key = d.markings.get m := by
  rw [decode_of_topology ht, conclude_result] at h
  cases hfollow : (Draft.follow mode {} (visits t)).result with
  | error e =>
    rw [hfollow] at h
    cases h
  | ok d =>
    rw [hfollow] at h
    obtain rfl := Except.ok.inj h
    obtain ⟨-, hkeys⟩ := markings_of_follow hfollow
    have hget : (d.finish fallback).get? m.key =
        ((d.markings.get m).map .text).or (d.record.get? m.key) :=
      Descriptor.get?_apply_key _ _ m
    refine ⟨d, rfl, ?_⟩
    rw [Record.text?, hget, hkeys]
    cases d.markings.get m <;> rfl

end Catalogue.Exchange
