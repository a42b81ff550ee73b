/-!
# Enumerations

Closed sets of texts that some attributes are limited to. Membership is exact, with letter case.
-/

namespace Catalogue.Record

/-- A named set of texts. -/
structure Enumeration where
  name : String
  values : List String
  deriving DecidableEq, Repr

namespace Enumeration

/-- The member equal to a text. -/
def find? (t : Enumeration) (s : String) : Option String := t.values.find? (fun v => v == s)

def contains (t : Enumeration) (s : String) : Bool := (t.find? s).isSome

end Enumeration

def cardStatus : Enumeration := ⟨"cardStatus", ["NEW", "CHANGED", "OBSOLETE"]⟩

def approvalStatus : Enumeration :=
  ⟨"approvalStatus", ["NOT APPLICABLE", "APPROVED", "NOT APPROVED", "PENDING"]⟩

def imageryCategory : Enumeration :=
  ⟨"imageryCategory",
    ["EO", "FL", "FP", "HR", "HS", "IR", "MS", "OP", "SAR", "TI", "UV", "VIS"]⟩

def videoEncoding : Enumeration :=
  ⟨"videoEncodingScheme", ["264ON2", "MPEG-1", "MPEG-2", "MPEG-4", "H.263", "H.264"]⟩

def subjectiveQuality : Enumeration :=
  ⟨"subjectiveQualityCode", ["POOR", "FAIR", "GOOD", "EXCELLENT"]⟩

/-- Every enumeration. -/
def enumerations : List Enumeration :=
  [cardStatus, approvalStatus, imageryCategory, videoEncoding, subjectiveQuality]

end Catalogue.Record
