import Mathlib.Data.List.Basic

/-! # The classes of an IDMEF message

The fields of every class in the order in which the wrappers are generated from
them. A member of a union counts as one child, any other field as one child.
-/

namespace LibPrelude

inductive IdmefValueTypeId where
  | unknown
  | int8
  | uint8
  | int16
  | uint16
  | int32
  | uint32
  | int64
  | uint64
  | float
  | double
  | string
  | time
  | data
  | enum
  | list
  | «class»
  deriving DecidableEq, Repr

inductive IdmefEnumId where
  | additionalDataType
  | referenceOrigin
  | userIdType
  | userCategory
  | addressCategory
  | nodeCategory
  | sourceSpoofed
  | checksumAlgorithm
  | fileCategory
  | fileFstype
  | linkageCategory
  | targetDecoy
  | impactSeverity
  | impactCompletion
  | impactType
  | actionCategory
  | confidenceRating
  deriving DecidableEq, Repr

inductive IdmefClassId where
  | additionalData
  | reference
  | classification
  | userId
  | user
  | address
  | process
  | webService
  | snmpService
  | service
  | node
  | source
  | fileAccess
  | inode
  | checksum
  | file
  | linkage
  | target
  | analyzer
  | alertident
  | impact
  | action
  | confidence
  | assessment
  | toolAlert
  | correlationAlert
  | overflowAlert
  | alert
  | heartbeat
  | message
  deriving DecidableEq, Repr

inductive PrimType where
  | string
  | time
  | data
  deriving DecidableEq, Repr

def PrimType.valueType : PrimType → IdmefValueTypeId
  | string => .string
  | time => .time
  | data => .data

/-- One member of a union and the value of the discriminant that selects it. -/
structure Member where
  value : ℕ
  name : String
  cls : IdmefClassId

/-- How a field is declared. A required field is allocated with its object. -/
inductive FieldType where
  | optionalInt (type : IdmefValueTypeId)
  | optionalEnum (type : IdmefEnumId)
  | enum (type : IdmefEnumId)
  | float
  | prim (type : PrimType) (required : Bool)
  | struct (cls : IdmefClassId) (required : Bool)
  | primList (type : PrimType)
  | structList (cls : IdmefClassId) (keyed : Bool)
  | union (members : List Member)

structure FieldDesc where
  name : String
  type : FieldType

namespace FieldDesc

def str (name : String) : FieldDesc := ⟨name, .prim .string false⟩
def requiredStr (name : String) : FieldDesc := ⟨name, .prim .string true⟩
def time (name : String) : FieldDesc := ⟨name, .prim .time false⟩
def requiredTime (name : String) : FieldDesc := ⟨name, .prim .time true⟩
def optionalInt (type : IdmefValueTypeId) (name : String) : FieldDesc := ⟨name, .optionalInt type⟩
def enum (type : IdmefEnumId) (name : String) : FieldDesc := ⟨name, .enum type⟩
def struct (cls : IdmefClassId) (name : String) : FieldDesc := ⟨name, .struct cls false⟩
def requiredStruct (cls : IdmefClassId) (name : String) : FieldDesc := ⟨name, .struct cls true⟩
def listed (cls : IdmefClassId) (name : String) : FieldDesc := ⟨name, .structList cls false⟩
def listedStr (name : String) : FieldDesc := ⟨name, .primList .string⟩

end FieldDesc

open FieldDesc in
def IdmefClassId.fields : IdmefClassId → List FieldDesc
  | additionalData =>
    [str "meaning", enum .additionalDataType "type", ⟨"data", .prim .data true⟩]
  | reference =>
    [enum .referenceOrigin "origin", requiredStr "name", requiredStr "url", str "meaning"]
  | classification => [str "ident", requiredStr "text", listed reference "reference"]
  | userId =>
    [str "ident", enum .userIdType "type", str "tty", str "name", optionalInt .uint32 "number"]
  | user => [str "ident", enum .userCategory "category", listed userId "user_id"]
  | address =>
    [str "ident", enum .addressCategory "category", str "vlan_name", optionalInt .int32 "vlan_num",
      requiredStr "address", str "netmask"]
  | process =>
    [str "ident", requiredStr "name", optionalInt .uint32 "pid", str "path", listedStr "arg",
      listedStr "env"]
  | webService => [requiredStr "url", str "cgi", str "http_method", listedStr "arg"]
  | snmpService =>
    [str "oid", optionalInt .uint32 "message_processing_model",
      optionalInt .uint32 "security_model", str "security_name",
      optionalInt .uint32 "security_level", str "context_name", str "context_engine_id",
      str "command"]
  | service =>
    [str "ident", optionalInt .uint8 "ip_version", optionalInt .uint8 "iana_protocol_number",
      str "iana_protocol_name", str "name", optionalInt .uint16 "port", str "portlist",
      str "protocol",
      ⟨"specific", .union [⟨1, "web_service", webService⟩, ⟨2, "snmp_service", snmpService⟩]⟩]
  | node =>
    [str "ident", enum .nodeCategory "category", str "name", str "location",
      listed address "address"]
  | source =>
    [str "ident", enum .sourceSpoofed "spoofed", str "interface", struct node "node",
      struct user "user", struct process "process", struct service "service"]
  | fileAccess => [requiredStruct userId "user_id", listedStr "permission"]
  | inode =>
    [time "change_time", optionalInt .uint32 "number", optionalInt .uint32 "major_device",
      optionalInt .uint32 "minor_device", optionalInt .uint32 "c_major_device",
      optionalInt .uint32 "c_minor_device"]
  | checksum => [requiredStr "value", str "key", enum .checksumAlgorithm "algorithm"]
  | file =>
    [str "ident", requiredStr "name", requiredStr "path", time "create_time", time "modify_time",
      time "access_time", optionalInt .uint64 "data_size", optionalInt .uint64 "disk_size",
      listed fileAccess "file_access", listed linkage "linkage", struct inode "inode",
      listed checksum "checksum", enum .fileCategory "category",
      ⟨"fstype", .optionalEnum .fileFstype⟩, str "file_type"]
  | linkage =>
    [enum .linkageCategory "category", requiredStr "name", requiredStr "path",
      requiredStruct file "file"]
  | target =>
    [str "ident", enum .targetDecoy "decoy", str "interface", struct node "node",
      struct user "user", struct process "process", struct service "service", listed file "file"]
  | analyzer =>
    [str "analyzerid", str "name", str "manufacturer", str "model", str "version", str "class",
      str "ostype", str "osversion", struct node "node", struct process "process"]
  | alertident => [requiredStr "alertident", str "analyzerid"]
  | impact =>
    [⟨"severity", .optionalEnum .impactSeverity⟩, ⟨"completion", .optionalEnum .impactCompletion⟩,
      enum .impactType "type", str "description"]
  | action => [enum .actionCategory "category", str "description"]
  | confidence => [enum .confidenceRating "rating", ⟨"confidence", .float⟩]
  | assessment =>
    [struct impact "impact", listed action "action", struct confidence "confidence"]
  | toolAlert => [requiredStr "name", str "command", listed alertident "alertident"]
  | correlationAlert => [requiredStr "name", listed alertident "alertident"]
  | overflowAlert =>
    [requiredStr "program", optionalInt .uint32 "size", ⟨"buffer", .prim .data false⟩]
  | alert =>
    [str "messageid", listed analyzer "analyzer", requiredTime "create_time",
      requiredStruct classification "classification", time "detect_time", time "analyzer_time",
      listed source "source", listed target "target", struct assessment "assessment",
      ⟨"additional_data", .structList additionalData true⟩,
      ⟨"detail", .union [⟨1, "tool_alert", toolAlert⟩,
        ⟨2, "correlation_alert", correlationAlert⟩, ⟨3, "overflow_alert", overflowAlert⟩]⟩]
  | heartbeat =>
    [str "messageid", listed analyzer "analyzer", requiredTime "create_time",
      time "analyzer_time", optionalInt .uint32 "heartbeat_interval",
      ⟨"additional_data", .structList additionalData true⟩]
  | message =>
    [requiredStr "version",
      ⟨"message", .union [⟨1, "alert", alert⟩, ⟨2, "heartbeat", heartbeat⟩]⟩]

def FieldType.required : FieldType → Bool
  | .prim _ r => r
  | .struct _ r => r
  | _ => false

/-- A child of a class: the position of its field and, in a union, the member. -/
structure Child where
  field : ℕ
  type : FieldType
  member : Option Member

def FieldDesc.children (field : ℕ) (d : FieldDesc) : List Child :=
  match d.type with
  | .union members => members.map fun m => ⟨field, d.type, some m⟩
  | type => [⟨field, type, none⟩]

def IdmefClassId.children (cls : IdmefClassId) : List Child :=
  cls.fields.zipIdx.flatMap fun d => d.1.children d.2

end LibPrelude
