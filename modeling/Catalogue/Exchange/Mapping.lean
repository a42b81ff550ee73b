import Catalogue.Record.Enumeration
import Catalogue.Schema.Attribute

/-!
# Fields of entities

Which attribute of which entity holds which key of a record, and as what kind of value. Both
directions of the exchange read these tables. Security markings, the box of a coverage and the
identifiers of associated records are not in them.
-/

namespace Catalogue.Exchange

open Catalogue.Record
open Catalogue.Schema (Entity Kind)

/-- An attribute of an entity and the key of a record that it holds. -/
structure Mapping where
  name : String
  key : String
  kind : Kind
  /-- The texts the attribute is limited to, if it is. -/
  table : Option Enumeration
  deriving DecidableEq, Repr

namespace Mapping

/-- A field that takes every value of its kind. -/
def plain (name key : String) (kind : Kind) : Mapping := ⟨name, key, kind, none⟩

/-- A text field that is limited to an enumeration. -/
def enumerated (name key : String) (table : Enumeration) : Mapping := ⟨name, key, .text, some table⟩

end Mapping

/-- The fields of an entity, in order. -/
def mappings : Entity → List Mapping
  | .approval =>
    [.plain "approvedBy" "approval.approved-by" .text,
      .plain "dateTimeModified" "approval.modified" .date,
      .enumerated "status" "approval.status" approvalStatus]
  | .file =>
    [.plain "archived" "file.archived" .bool,
      .plain "archiveInformation" "file.archive-information" .text,
      .plain "creator" "contact.creator-name" .text,
      .plain "dateTimeDeclared" "created" .date,
      .plain "extent" "resource-size" .double,
      .plain "format" "media.format" .text,
      .plain "formatVersion" "media.format-version" .text,
      .plain "productURL" "resource-uri" .text,
      .plain "title" "title" .text]
  | .stream =>
    [.plain "archived" "stream.archived" .bool,
      .plain "archiveInformation" "stream.archive-information" .text,
      .plain "creator" "stream.creator" .text,
      .plain "dateTimeDeclared" "stream.date-time-declared" .date,
      .plain "standard" "stream.standard" .text,
      .plain "standardVersion" "stream.standard-version" .text,
      .plain "sourceURL" "stream.source-uri" .text,
      .plain "programID" "stream.program-id" .short]
  | .card =>
    [.plain "identifier" "id" .text,
      .plain "sourceDateTimeModified" "metacard.modified" .date,
      .plain "dateTimeModified" "modified" .date,
      .plain "sourceLibrary" "source-id" .text,
      .enumerated "status" "card.status" cardStatus,
      .plain "numberOfParts" "card.number-of-parts" .int,
      .plain "publisher" "contact.publisher-name" .text]
  | .relatedFile =>
    [.plain "creator" "related-file.creator" .text,
      .plain "dateTimeDeclared" "related-file.created" .date,
      .plain "extent" "related-file.size" .double,
      .plain "URL" "related-file.uri" .text,
      .plain "isFileLocal" "related-file.local" .bool,
      .plain "fileType" "related-file.type" .text]
  | .part =>
    [.plain "partIdentifier" "part.identifier" .text]
  | .common =>
    [.plain "identifierUUID" "common.identifier-uuid" .text,
      .plain "type" "datatype" .text,
      .plain "descriptionAbstract" "description" .text,
      .plain "identifierMission" "isr.mission-id" .text,
      .plain "language" "language" .text,
      .plain "source" "common.source" .text,
      .plain "subjectCategoryTarget" "topic.category" .text,
      .plain "targetNumber" "isr.target-id" .text]
  | .coverage =>
    [.plain "spatialCountryCode" "location.country-code" .text,
      .plain "temporalStart" "datetime.start" .date,
      .plain "temporalEnd" "datetime.end" .date]
  | .exploitationInfo =>
    [.plain "description" "exploitation.description" .text,
      .plain "level" "exploitation.level" .short,
      .plain "autoGenerated" "exploitation.auto-generated" .bool,
      .enumerated "subjectiveQualityCode" "exploitation.subjective-quality-code" subjectiveQuality]
  | .cxp =>
    [.plain "status" "cxp.status" .text]
  | .gmti =>
    [.plain "identifierJob" "isr.moving-target-job-id" .double,
      .plain "numberOfTargetReports" "isr.target-report-count" .long]
  | .imagery =>
    [.enumerated "category" "isr.category" imageryCategory,
      .plain "cloudCoverPercentage" "isr.cloud-cover" .short,
      .plain "comments" "isr.comments" .text,
      .plain "decompressionTechnique" "media.compression" .text,
      .plain "identifier" "isr.image-id" .text,
      .plain "NIIRS" "isr.niirs" .short,
      .plain "numberOfBands" "media.number-of-bands" .int,
      .plain "numberOfRows" "media.height-pixels" .int,
      .plain "numberOfColumns" "media.width-pixels" .int,
      .plain "title" "isr.image-title" .text]
  | .message =>
    [.plain "recipient" "message.recipient" .text,
      .plain "subject" "message.subject" .text,
      .plain "messageBody" "message.body" .text,
      .plain "messageType" "message.type" .text]
  | .report =>
    [.plain "serialNumber" "isr.report-serial-number" .text,
      .plain "priority" "isr.report-priority" .text,
      .plain "type" "isr.report-type" .text]
  | .rfi =>
    [.plain "forAction" "rfi.for-action" .text,
      .plain "serialNumber" "rfi.serial-number" .text,
      .plain "status" "rfi.status" .text,
      .plain "workflowStatus" "rfi.workflow-status" .text]
  | .sds =>
    [.plain "operationalStatus" "sds.operational-status" .text]
  | .task =>
    [.plain "comments" "task.comments" .text,
      .plain "status" "task.status" .text]
  | .tdl =>
    [.plain "activity" "tdl.activity" .short,
      .plain "messageNumber" "tdl.message-number" .text,
      .plain "platform" "tdl.platform" .short,
      .plain "trackNumber" "tdl.track-number" .text]
  | .video =>
    [.plain "averageBitRate" "media.bit-rate" .double,
      .plain "category" "isr.video-category" .text,
      .enumerated "encodingScheme" "media.encoding" videoEncoding,
      .plain "frameRate" "media.frame-rate" .double,
      .plain "numberOfRows" "media.height-pixels" .int,
      .plain "numberOfColumns" "media.width-pixels" .int]
  | _ => []

/-- The field of an entity with an attribute name. -/
def mapping? (e : Entity) (name : String) : Option Mapping :=
  (mappings e).find? (fun m => m.name == name)

/-! ## Names outside the tables -/

/-- The attribute that holds the box of a coverage. -/
def boxName : String := "spatialGeographicReferenceBox"

/-- The key of the location. -/
def locationKey : String := "location"

/-- The attribute that holds an identifier. -/
def identifierName : String := "identifier"

end Catalogue.Exchange
