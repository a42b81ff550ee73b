import Catalogue.Schema.Entity

/-!
# Product types

The type of a record. Each type has an entity of its own, which holds the fields of that type, and a
content-type name.
-/

namespace Catalogue.Record

open Catalogue.Schema (Entity)

/-- The type of a record. -/
inductive Product where
  | imagery
  | video
  | gmti
  | message
  | report
  | tdlData
  | rfi
  | task
  | collectionExploitationPlan
  | systemDeploymentStatus
  deriving DecidableEq, Repr

namespace Product

/-- Every type. -/
def all : List Product :=
  [imagery, video, gmti, message, report, tdlData, rfi, task, collectionExploitationPlan,
    systemDeploymentStatus]

/-- The content-type name. -/
def contentTypeName : Product → String
  | imagery => "IMAGERY"
  | video => "VIDEO"
  | gmti => "GMTI"
  | message => "MESSAGE"
  | report => "REPORT"
  | tdlData => "TDL DATA"
  | rfi => "RFI"
  | task => "TASK"
  | collectionExploitationPlan => "COLLECTION/EXPLOITATION PLAN"
  | systemDeploymentStatus => "SYSTEM DEPLOYMENT STATUS"

def ofContentTypeName? (s : String) : Option Product := all.find? (fun p => p.contentTypeName == s)

/-- The name of a type in serialised form. -/
def name : Product → String
  | imagery => "IMAGERY"
  | video => "VIDEO"
  | gmti => "GMTI"
  | message => "MESSAGE"
  | report => "REPORT"
  | tdlData => "TDL_DATA"
  | rfi => "RFI"
  | task => "TASK"
  | collectionExploitationPlan => "COLLECTION_EXPLOITATION_PLAN"
  | systemDeploymentStatus => "SYSTEM_DEPLOYMENT_STATUS"

def ofName? (s : String) : Option Product := all.find? (fun p => p.name == s)

def toJson (p : Product) : Json := .string p.name

def ofJson? (v : Json) : Option Product := v.name?.bind ofName?

/-- The entity that holds the fields of the type. -/
def entity : Product → Entity
  | imagery => .imagery
  | video => .video
  | gmti => .gmti
  | message => .message
  | report => .report
  | tdlData => .tdl
  | rfi => .rfi
  | task => .task
  | collectionExploitationPlan => .cxp
  | systemDeploymentStatus => .sds

/-- The type whose fields an entity holds. -/
def ofEntity? (e : Entity) : Option Product := all.find? (fun p => p.entity == e)

end Product

end Catalogue.Record
