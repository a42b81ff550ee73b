import Catalogue.Schema.Declaration

/-!
# The standard schema

The entities of the product data model with their attributes, the relationships between them, and
the one view that has them all.
-/

namespace Catalogue.Schema

/-- The attributes of an entity: name, kind, and whether it must be present. -/
def attributeRows : Entity → List (String × Kind × Bool)
  | .product => []
  | .approval =>
    [("approvedBy", .text, false),
      ("dateTimeModified", .date, false),
      ("status", .text, false)]
  | .file =>
    [("archived", .bool, false),
      ("archiveInformation", .text, false),
      ("creator", .text, false),
      ("dateTimeDeclared", .date, false),
      ("extent", .double, false),
      ("format", .text, false),
      ("formatVersion", .text, false),
      ("productURL", .text, false),
      ("title", .text, false)]
  | .stream =>
    [("archived", .bool, false),
      ("archiveInformation", .text, false),
      ("creator", .text, false),
      ("dateTimeDeclared", .date, false),
      ("standard", .text, false),
      ("standardVersion", .text, false),
      ("sourceURL", .text, false),
      ("programID", .short, false)]
  | .metadataSecurity =>
    [("classification", .text, true),
      ("policy", .text, true),
      ("releasability", .text, true)]
  | .security =>
    [("classification", .text, true),
      ("policy", .text, true),
      ("releasability", .text, true)]
  | .card =>
    [("identifier", .text, true),
      ("sourceDateTimeModified", .date, false),
      ("dateTimeModified", .date, false),
      ("sourceLibrary", .text, false),
      ("status", .text, false),
      ("numberOfParts", .int, false),
      ("publisher", .text, false)]
  | .relatedFile =>
    [("creator", .text, false),
      ("dateTimeDeclared", .date, false),
      ("extent", .double, false),
      ("URL", .text, false),
      ("isFileLocal", .bool, false),
      ("fileType", .text, false)]
  | .part =>
    [("partIdentifier", .text, true)]
  | .common =>
    [("identifierUUID", .text, false),
      ("type", .text, true),
      ("descriptionAbstract", .text, false),
      ("identifierMission", .text, false),
      ("language", .text, false),
      ("source", .text, false),
      ("subjectCategoryTarget", .text, false),
      ("targetNumber", .text, false)]
  | .coverage =>
    [("spatialCountryCode", .text, false),
      ("spatialGeographicReferenceBox", .rectangle, false),
      ("temporalStart", .date, false),
      ("temporalEnd", .date, false)]
  | .exploitationInfo =>
    [("description", .text, false),
      ("level", .short, false),
      ("autoGenerated", .bool, false),
      ("subjectiveQualityCode", .text, false)]
  | .cxp =>
    [("status", .text, false)]
  | .gmti =>
    [("identifierJob", .double, false),
      ("numberOfTargetReports", .long, false)]
  | .imagery =>
    [("category", .text, false),
      ("cloudCoverPercentage", .short, false),
      ("comments", .text, false),
      ("decompressionTechnique", .text, false),
      ("identifier", .text, true),
      ("NIIRS", .short, false),
      ("numberOfBands", .int, false),
      ("numberOfRows", .int, false),
      ("numberOfColumns", .int, false),
      ("title", .text, false)]
  | .message =>
    [("recipient", .text, false),
      ("subject", .text, false),
      ("messageBody", .text, false),
      ("messageType", .text, true)]
  | .report =>
    [("serialNumber", .text, false),
      ("priority", .text, false),
      ("type", .text, false)]
  | .rfi =>
    [("forAction", .text, false),
      ("serialNumber", .text, false),
      ("status", .text, false),
      ("workflowStatus", .text, false)]
  | .sds =>
    [("operationalStatus", .text, false)]
  | .task =>
    [("comments", .text, false),
      ("status", .text, true)]
  | .tdl =>
    [("activity", .short, false),
      ("messageNumber", .text, false),
      ("platform", .short, false),
      ("trackNumber", .text, false)]
  | .video =>
    [("averageBitRate", .double, false),
      ("category", .text, false),
      ("encodingScheme", .text, true),
      ("frameRate", .double, false),
      ("numberOfRows", .int, false),
      ("numberOfColumns", .int, false)]
  | .association => []
  | .destination => []
  | .relation =>
    [("name", .text, true),
      ("description", .text, false)]
  | .source => []

/-- The relationships: parent, child, parents per child, children per parent. -/
def relationshipRows : List Relationship :=
  [⟨.product, .approval, .oneToOne, .oneToZeroOrMore⟩,
    ⟨.product, .card, .oneToOne, .oneToOne⟩,
    ⟨.product, .file, .oneToOne, .oneToZeroOrMore⟩,
    ⟨.product, .stream, .oneToOneOrMore, .oneToZeroOrMore⟩,
    ⟨.product, .metadataSecurity, .oneToOne, .oneToOne⟩,
    ⟨.product, .relatedFile, .oneToOne, .oneToZeroOrMore⟩,
    ⟨.product, .security, .oneToOne, .oneToOne⟩,
    ⟨.product, .part, .oneToOne, .oneToOneOrMore⟩,
    ⟨.product, .association, .oneToOne, .oneToZeroOrMore⟩,
    ⟨.part, .security, .oneToOne, .oneToOne⟩,
    ⟨.part, .common, .oneToOne, .oneToOne⟩,
    ⟨.part, .coverage, .oneToOne, .oneToZeroOrOne⟩,
    ⟨.part, .exploitationInfo, .oneToOne, .oneToZeroOrOne⟩,
    ⟨.part, .cxp, .oneToOne, .oneToZeroOrOne⟩,
    ⟨.part, .gmti, .oneToOne, .oneToZeroOrOne⟩,
    ⟨.part, .imagery, .oneToOne, .oneToZeroOrOne⟩,
    ⟨.part, .message, .oneToOne, .oneToZeroOrOne⟩,
    ⟨.part, .report, .oneToOne, .oneToZeroOrOne⟩,
    ⟨.part, .rfi, .oneToOne, .oneToZeroOrOne⟩,
    ⟨.part, .sds, .oneToOne, .oneToZeroOrOne⟩,
    ⟨.part, .task, .oneToOne, .oneToZeroOrOne⟩,
    ⟨.part, .tdl, .oneToOne, .oneToZeroOrOne⟩,
    ⟨.part, .video, .oneToOne, .oneToZeroOrOne⟩,
    ⟨.association, .relation, .oneToZeroOrMore, .oneToOne⟩,
    ⟨.association, .source, .oneToOne, .oneToOne⟩,
    ⟨.association, .destination, .oneToOne, .oneToOneOrMore⟩,
    ⟨.source, .card, .oneToZeroOrMore, .oneToOne⟩,
    ⟨.destination, .card, .oneToZeroOrMore, .oneToOne⟩]

/-- The standard declarations. -/
def standardDeclarations : Declarations where
  entities := Entity.all.map fun e =>
    (e, (attributeRows e).map fun (name, kind, required) => ⟨e, name, kind, required⟩)
  relationships := relationshipRows
  views := [(fullView, .product)]

/-- The standard schema. -/
def standard : Schema := standardDeclarations.schema

end Catalogue.Schema
