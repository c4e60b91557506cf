import LibPrelude.General.Bytes

/-! # Message objects and frame headers

A message object is the header fields with the indices into a payload buffer
whose first 16 bytes are reserved for the wire header. On the wire a message is
one frame, or several frames of which all but the last carry the fragment flag.
-/

namespace LibPrelude

open Bytes

/-- The error codes met by the modelled functions; `-1` is the generic one. -/
inductive ErrorCode where
  | generic
  | invalLength
  | protocolVersion
  | eof
  | profile
  | invalInt8
  | invalInt16
  | invalInt32
  | invalInt64
  | invalFloat
  | invalChar
  | invalIdmefTime
  | connectionString
  | idmefUnknownTag
  | assertion
  | eagain
  | eintr
  | tlsWarningAlert
  | epipe
  | efbig
  | einval
  | idmefClassUnknownChild
  | idmefClassChildNotClass
  | idmefTreeIndexUndefined
  | idmefUnknownEnumString
  | idmefValueTypeUnknown
  | idmefValueTypeParse
  | idmefValueTypeCompareMismatch
  | idmefValueTypeCompareUnavailable
  | idmefValueTypeCopyUnavailable
  | idmefValueTypeReadUnavailable
  | idmefValueTypeWriteUnavailable
  | idmefValueTypeRefUnavailable
  | idmefCriterionUnsupportedOperator
  | idmefCriterionInvalidRegex
  | idmefCriteriaParse
  | idmefPathLength
  | idmefPathDepth
  | idmefPathIndexForbidden
  | enomem
  | stringNotNulTerminated
  | other (code : ℕ)
  deriving DecidableEq, Repr

/-- A C function's return value: zero or more on success, a negative error otherwise. -/
abbrev Ret := Except ErrorCode Unit

def msgbufSize : UInt32 := 8192
def preludeMsgVersion : UInt8 := 1
def preludeMsgHdrSize : UInt32 := 16
def minimumFragmentDataSize : UInt32 := 1
def preludeMsgPriorityNone : UInt8 := 0

/-- Anything bigger than this will be discarded. -/
def maxMessageSize : ℕ := 100 * 1024 * 1024

structure Hdr where
  version : UInt8
  tag : UInt8
  priority : UInt8
  isFragment : UInt8
  datalen : UInt32
  tvSec : UInt32
  tvUsec : UInt32
  deriving DecidableEq, Repr

/-- A message object; the payload pointer is null until a header has been read. -/
structure Msg where
  readIndex : UInt32
  headerIndex : UInt32
  writeIndex : UInt32
  fdWriteIndex : UInt32
  hdr : Hdr
  hdrbuf : List UInt8
  payload : Option (List UInt8)
  deriving DecidableEq, Repr

/-- The seconds and microseconds of a clock reading, as truncated to 32 bits. -/
structure Timeval where
  tvSec : UInt32
  tvUsec : UInt32
  deriving DecidableEq, Repr

def htonl (x : UInt32) : UInt32 := UInt32.ofNat (ofLe (beBytes 4 x.toNat))

/-- The big-endian 32-bit integer at an offset. -/
def extractUint32 (buf : List UInt8) (off : ℕ) : UInt32 :=
  UInt32.ofNat (ofBe ((buf.drop off).take 4))

/-- Growing an allocation keeps its content; the new bytes are not initialised. -/
def preludeRealloc (buf : List UInt8) (size : ℕ) : List UInt8 :=
  buf.take size ++ List.replicate (size - buf.length) 0

def Hdr.bytes (h : Hdr) : List UInt8 :=
  [h.version, h.tag, h.priority, h.isFragment] ++ beBytes 4 h.datalen.toNat ++
    beBytes 4 h.tvSec.toNat ++ beBytes 4 h.tvUsec.toNat

/-- One frame of the wire format: a header with the length of the data that follows. -/
structure Frame where
  hdr : Hdr
  body : List UInt8
  length_body : body.length = hdr.datalen.toNat
  deriving DecidableEq

def Frame.bytes (f : Frame) : List UInt8 := f.hdr.bytes ++ f.body

def wire (fs : List Frame) : List UInt8 := fs.flatMap Frame.bytes

@[simp] theorem Hdr.length_bytes (h : Hdr) : h.bytes.length = 16 := by simp [Hdr.bytes]

@[simp] theorem Frame.length_bytes (f : Frame) : f.bytes.length = 16 + f.body.length := by
  simp [Frame.bytes]

@[simp] theorem wire_nil : wire [] = [] := rfl

@[simp] theorem wire_cons (f : Frame) (fs : List Frame) : wire (f :: fs) = f.bytes ++ wire fs := by
  simp [wire]

@[simp] theorem wire_append (fs gs : List Frame) : wire (fs ++ gs) = wire fs ++ wire gs := by
  simp [wire]

theorem extractUint32_beBytes (pre post : List UInt8) (x : UInt32) :
    extractUint32 (pre ++ (beBytes 4 x.toNat ++ post)) pre.length = x := by
  have hx : x.toNat < 256 ^ 4 := x.toNat_lt
  rw [extractUint32, List.drop_left, List.take_left' (length_beBytes 4 _), ofBe_beBytes_of_lt hx,
    UInt32.ofNat_toNat]

theorem length_preludeRealloc {buf : List UInt8} {size : ℕ} (h : buf.length ≤ size) :
    (preludeRealloc buf size).length = size := by
  simp [preludeRealloc]; omega

theorem preludeRealloc_of_le {buf : List UInt8} {size : ℕ} (h : buf.length ≤ size) :
    preludeRealloc buf size = buf ++ List.replicate (size - buf.length) 0 := by
  rw [preludeRealloc, List.take_of_length_le h]

end LibPrelude
