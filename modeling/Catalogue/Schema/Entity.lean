import Catalogue.Json.Shape

/-!
# Entities

The closed set of entities of the product data model. Their names are matched with letter case.
-/

namespace Catalogue.Schema

/-- An entity of the data model. -/
inductive Entity where
  | product
  | approval
  | file
  | stream
  | metadataSecurity
  | security
  | card
  | relatedFile
  | part
  | common
  | coverage
  | exploitationInfo
  | cxp
  | gmti
  | imagery
  | message
  | report
  | rfi
  | sds
  | task
  | tdl
  | video
  | association
  | destination
  | relation
  | source
  deriving DecidableEq, Repr

namespace Entity

/-- Every entity, in the order in which entities are listed. -/
def all : List Entity :=
  [product, approval, file, stream, metadataSecurity, security, card, relatedFile, part,
    common, coverage, exploitationInfo, cxp, gmti, imagery, message, report, rfi, sds, task,
    tdl, video, association, destination, relation, source]

/-- The name of an entity in graphs and in serialised form. -/
def name : Entity → String
  | product => "product"
  | approval => "approval"
  | file => "file"
  | stream => "stream"
  | metadataSecurity => "metadataSecurity"
  | security => "security"
  | card => "card"
  | relatedFile => "relatedFile"
  | part => "part"
  | common => "common"
  | coverage => "coverage"
  | exploitationInfo => "exploitationInfo"
  | cxp => "cxp"
  | gmti => "gmti"
  | imagery => "imagery"
  | message => "message"
  | report => "report"
  | rfi => "rfi"
  | sds => "sds"
  | task => "task"
  | tdl => "tdl"
  | video => "video"
  | association => "association"
  | destination => "destination"
  | relation => "relation"
  | source => "source"

def ofName? (s : String) : Option Entity := all.find? (fun e => e.name == s)

def toJson (e : Entity) : Json := .string e.name

def ofJson? (v : Json) : Option Entity := v.name?.bind ofName?

/-- Whether the leaves of the entity are security markings. -/
def holdsMarkings : Entity → Bool
  | security => true
  | metadataSecurity => true
  | _ => false

theorem mem_all (e : Entity) : e ∈ all := by cases e <;> decide

theorem ofName?_name (e : Entity) : ofName? e.name = some e := by cases e <;> decide +kernel

/-- A name is that of one entity at most. -/
theorem ofName?_eq_some_iff {s : String} {e : Entity} : ofName? s = some e ↔ s = e.name := by
  constructor
  · intro h
    have hfound := List.find?_some h
    exact (beq_iff_eq.mp hfound).symm
  · rintro rfl
    exact ofName?_name e

/-- The place of an entity in the order in which entities are listed. -/
def place (e : Entity) : Nat := all.idxOf e

end Entity

instance : LT Entity := ⟨fun d e => d.place < e.place⟩

instance : DecidableLT Entity := fun d e => inferInstanceAs (Decidable (d.place < e.place))

/-- The view that has every entity. -/
def fullView : String := "NSIL_ALL_VIEW"

/-- The name of the root of a record graph. -/
def rootName : String := "NSIL_PRODUCT"

end Catalogue.Schema
