import Catalogue.Proofs.Exchange.RoundTrip
import Catalogue.Time.Reading

/-!
# Dates there and back

A date is written in parts, with the seconds as one number below 60. An instant inside a leap second
has no such parts, so a date that is encoded comes back unless it lies inside one.

* `IsNormalForm.get?_date` — what stands under the key of a date.
* `dates_round_trip` — a date comes back unless it lies inside a leap second.
-/

namespace Catalogue.Exchange

open Catalogue.Graph (Timestamp)
open Catalogue.Schema (Entity)
open Catalogue.Time (Instant stamp?)

/-- The entities that have dates are looked at for every record. -/
theorem mem_sections_of_date {e : Entity} {m : Mapping} (hm : m ∈ mappings e)
    (hkind : m.kind = .date) : e ∈ sections := by
  have hall : ∀ n ∈ mappings e, n.kind = .date → e ∈ sections := by
    cases e <;> decide +kernel
  exact hall m hm hkind

/-- Under the key of a date stands the date, unless it lies inside a leap second. -/
theorem IsNormalForm.get?_date {fallback : String} {r r' : Record}
    (h : IsNormalForm fallback r r') {e : Entity} {m : Mapping} (hm : m ∈ mappings e)
    (hkind : m.kind = .date) {t : Instant} (ht : r.get? m.key = some (.date t)) :
    r'.get? m.key = if t.isLeap then none else some (.date t) := by
  have he : e ∈ sectionsOf r := List.mem_append_left _ (mem_sections_of_date hm hkind)
  have hkeeps : m.keeps (.date t) = !t.isLeap := by simp only [Mapping.keeps, hkind]
  rw [h.field e he m hm, ht, Option.filter_some, hkeeps]
  cases t.isLeap <;> rfl

/-- An instant comes back from its parts, and a date from a record that is encoded, unless it lies
inside a leap second, where no parts name an instant. -/
theorem dates_round_trip :
    (∀ t, (Timestamp.ofInstant t).instant? = if t.isLeap then none else some t) ∧
    (∀ s : Timestamp, ∀ t, s.instant? = some t → t.isLeap = false) ∧
    ∀ fallback mode r g, (encode r).result = .ok g → g.nodes.size < 2 ^ 32 →
      ∃ r', (decode fallback mode g).result = .ok r' ∧
        ∀ e, ∀ m ∈ mappings e, m.kind = .date → ∀ t, r.get? m.key = some (.date t) →
          r'.get? m.key = if t.isLeap then none else some (.date t) := by
  refine ⟨Timestamp.instant?_ofInstant, fun s t => Timestamp.isLeap_of_instant?, ?_⟩
  intro fallback mode r g h hsize
  obtain ⟨hdecode, hnone⟩ := decode_of_encode fallback mode h hsize.le
  refine ⟨_, hdecode, ?_⟩
  intro e m hm hkind t ht
  exact (isNormalForm_finish fallback mode hnone).get?_date hm hkind ht

/-- A record that was last changed at an instant. -/
def changedAt (t : Instant) : Record where
  attributes := [("modified", .date t)]

/-- The last second before 2017, in which the nanoseconds run on into a leap second. -/
def lastSecond (nanos : Nat) (h : nanos < 2000000000) : Instant :=
  ⟨17166, 86399, nanos, by decide, by decide, h, fun _ => rfl⟩

theorem dates_round_trip_changed :
    ∃ g, (encode (changedAt (lastSecond 999999999 (by decide)))).result = .ok g ∧
      g.nodes.size = 3 ∧ ∃ r', (decode "REPORT" .legacy g).result = .ok r' ∧
        r'.get? "modified" = some (.date (lastSecond 999999999 (by decide))) := by
  obtain ⟨-, -, hround⟩ := dates_round_trip
  obtain ⟨r', hdecode, hdates⟩ := hround "REPORT" .legacy
    (changedAt (lastSecond 999999999 (by decide))) _ rfl (by decide +kernel)
  exact ⟨_, rfl, rfl, r', hdecode,
    hdates .card (.plain "dateTimeModified" "modified" .date) (by decide +kernel) rfl _ rfl⟩

/-- The leap second itself is written as parts that name no instant, and left out of the record. -/
theorem leap_second_left_out : ∃ t g r', stamp? "2016-12-31T23:59:60Z" = some t ∧
    (Timestamp.ofInstant t).instant? = none ∧ (encode (changedAt t)).result = .ok g ∧
    (decode "REPORT" .legacy g).result = .ok r' ∧ r'.get? "modified" = none := by
  obtain ⟨hdecode, hnone⟩ := decode_of_encode "REPORT" .legacy
    (r := changedAt (lastSecond 1000000000 (by decide))) rfl (by decide +kernel)
  refine ⟨lastSecond 1000000000 (by decide), _, _, by decide +kernel, ?_, rfl, hdecode, ?_⟩
  · rw [Timestamp.instant?_ofInstant]
    rfl
  · exact (isNormalForm_finish "REPORT" .legacy hnone).get?_date
      (e := .card) (m := .plain "dateTimeModified" "modified" .date) (by decide +kernel) rfl rfl

end Catalogue.Exchange
