import Catalogue.Proofs.Geometry.Reading
import Catalogue.Proofs.Number.Reading

/-!
# Finite geometries

A geometry that is read from a text has finite ordinates, and so has the box around it. The text of
a finite box can be read again.

* `finite_of_parse` — the ordinates that are read are finite.
* `exists_parse_box` — the text of a finite box is read.
-/

namespace Catalogue.Geometry

open Catalogue.Number Catalogue.Text

/-- Both ordinates are finite numbers. -/
def Coordinate.Finite (c : Coordinate) : Prop := c.All fun x => x.isFinite = true

/-- Both corners are finite. -/
def Box.Finite (b : Box) : Prop := b.All fun x => x.isFinite = true

/-! ## Reading -/

/-- What succeeds in two steps succeeds in each of them. -/
theorem exists_of_bind {ε α β : Type} {x : Except ε α} {f : α → Except ε β} {b : β}
    (h : (x >>= f) = .ok b) : ∃ a, x = .ok a ∧ f a = .ok b := by
  cases x with
  | error e => cases h
  | ok a => exact ⟨a, rfl, h⟩

theorem isFinite_of_degrees {s : String} {x : Float} (h : degrees s = .ok x) :
    x.isFinite = true := by
  unfold degrees at h
  split at h
  · next y hy =>
    obtain rfl := Except.ok.inj h
    exact (Option.filter_eq_some_iff.mp hy).2
  · cases h

theorem finite_of_ofTexts {lat lon : String} {c : Coordinate}
    (h : Coordinate.ofTexts lat lon = .ok c) : c.Finite := by
  obtain ⟨x, hx, h⟩ := exists_of_bind h
  obtain ⟨y, hy, h⟩ := exists_of_bind h
  obtain rfl := Except.ok.inj h
  exact ⟨isFinite_of_degrees hx, isFinite_of_degrees hy⟩

theorem finite_of_position {s : String} {c : Coordinate} (h : position s = .ok c) : c.Finite := by
  unfold position at h
  split at h
  · exact finite_of_ofTexts h
  · exact finite_of_ofTexts h
  · cases h

theorem finite_of_positionList {body : List Char} {cs : List Coordinate}
    (h : positionList body = .ok cs) : ∀ c ∈ cs, c.Finite := by
  rw [positionList] at h
  generalize (fields (· == ',') body).map String.ofList = texts at h
  induction texts generalizing cs with
  | nil =>
    obtain rfl := Except.ok.inj h
    exact fun c hc => absurd hc List.not_mem_nil
  | cons s rest ih =>
    rw [List.mapM_cons] at h
    obtain ⟨c, hc, h⟩ := exists_of_bind h
    obtain ⟨ds, hds, h⟩ := exists_of_bind h
    obtain rfl := Except.ok.inj h
    exact List.forall_mem_cons.mpr ⟨finite_of_position hc, ih hds⟩

section Bodies

variable {body : List Char} {g : Geometry}

theorem finite_of_ofPointBody (h : ofPointBody body = .ok g) : ∀ c ∈ g.positions, c.Finite := by
  obtain ⟨cs, hcs, h⟩ := exists_of_bind h
  split at h
  · obtain rfl := Except.ok.inj h
    exact finite_of_positionList hcs
  · cases h

theorem finite_of_ofLineBody (h : ofLineBody body = .ok g) : ∀ c ∈ g.positions, c.Finite := by
  obtain ⟨cs, hcs, h⟩ := exists_of_bind h
  split at h
  · obtain rfl := Except.ok.inj h
    exact finite_of_positionList hcs
  · cases h

theorem finite_of_ofRingBody (h : ofRingBody body = .ok g) : ∀ c ∈ g.positions, c.Finite := by
  obtain ⟨cs, hcs, h⟩ := exists_of_bind h
  split at h
  · obtain rfl := Except.ok.inj h
    exact finite_of_positionList hcs
  · cases h

end Bodies

/-- The ordinates that are read from a text are finite. -/
theorem finite_of_parse {s : String} {g : Geometry} (h : parse s = .ok g) :
    ∀ c ∈ g.positions, c.Finite := by
  unfold parse at h
  split at h
  · cases h
  · split at h
    · exact finite_of_ofPointBody h
    · exact finite_of_ofLineBody h
    · split at h
      · exact finite_of_ofRingBody h
      · cases h
    · cases h

/-- The box around a geometry that is read from a text is finite. -/
theorem finite_envelope {s : String} {g : Geometry} (h : parse s = .ok g) : g.envelope.Finite :=
  all_envelope (finite_of_parse h)

/-! ## Writing and reading -/

/-- What the number is read as from its text. -/
def reread (x : Float) : Float := (finite? (Number.text x)).getD 0.0

theorem readsAs_reread {x : Float} (h : x.isFinite = true) : ReadsAs x (reread x) := by
  obtain ⟨y, hy⟩ := exists_finite?_text h
  rw [ReadsAs, reread, hy]
  rfl

/-- The text of a finite box is read. -/
theorem exists_parse_box {b : Box} (h : b.Finite) : ∃ g, parse b.toGeometry.text = .ok g := by
  have hreads : ∀ c ∈ b.toGeometry.positions, c.ReadsAs ⟨reread c.lat, reread c.lon⟩ := by
    intro c hc
    obtain ⟨hlat, hlon⟩ := all_positions_toGeometry h c hc
    exact ⟨readsAs_reread hlat, readsAs_reread hlon⟩
  exact ⟨_, parse_text_of_readsAs (complete_toGeometry b) hreads⟩

end Catalogue.Geometry
