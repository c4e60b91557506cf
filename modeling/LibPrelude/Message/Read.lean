import LibPrelude.General.Resume
import LibPrelude.Message.Basic

/-! # Reading messages

The reader resumes from the indices kept in the message object. Every copy into
the header buffer or the payload is checked against the allocated size, so a
read that would leave its buffer has no result; neither has one that runs out
of fuel. A machine that takes one byte at a time describes what a call does.
-/

namespace LibPrelude

open Bytes Resume

section Source

variable {σ : Type*} (rd : ℕ → σ → Except ErrorCode (List UInt8) × σ)

/-- Read until `count` bytes are stored; also the number of bytes stored. -/
def readMessageData : ℕ → List UInt8 → ℕ → ℕ → ℕ → σ → Option (List UInt8 × ℕ × Ret × σ)
  | 0, _, _, _, _, _ => none
  | fuel + 1, dst, off, size, count, s => match rd (count - size) s with
    | (.error e, s) => some (dst, size, .error e, s)
    | (.ok bs, s) => (store dst (off + size) bs).bind fun dst =>
      if size + bs.length = count then some (dst, size + bs.length, .ok (), s)
      else readMessageData fuel dst off (size + bs.length) count s

/-- Tag, version and time come from the first frame, the priority from any frame. -/
def sliceMessageHeader (m : Msg) (hdrbuf : List UInt8) : Ret × Msg :=
  let hdr := if m.hdr.datalen = 0 then
    { m.hdr with
      version := hdrbuf.getD 0 0, tag := hdrbuf.getD 1 0,
      tvSec := extractUint32 hdrbuf 8, tvUsec := extractUint32 hdrbuf 12 }
    else m.hdr
  let hdr := if hdr.priority = preludeMsgPriorityNone then
    { hdr with priority := hdrbuf.getD 2 0 } else hdr
  let hdr := { hdr with isFragment := hdrbuf.getD 3 0 }
  let tmp := extractUint32 hdrbuf 4
  if hdr.datalen + tmp ≤ hdr.datalen then (.error .invalLength, { m with hdr })
  else if maxMessageSize ≤ (hdr.datalen + tmp).toNat then (.error .invalLength, { m with hdr })
  else (.ok (), { m with hdr := { hdr with datalen := hdr.datalen + tmp } })

/-- The end of `readMessageHeader`, once the 16 bytes are in the header buffer. -/
def completeHeader (m : Msg) : Ret × Msg :=
  let oldDlen := m.hdr.datalen
  match sliceMessageHeader m m.hdrbuf with
  | (.error e, m) => (.error e, m)
  | (.ok (), m) =>
    if m.hdr.datalen + preludeMsgHdrSize ≤ oldDlen then (.error .invalLength, m)
    else if m.hdr.version ≠ preludeMsgVersion then (.error .protocolVersion, m)
    else (.ok (), { m with
      writeIndex := m.hdr.datalen + preludeMsgHdrSize
      payload := some (preludeRealloc (m.payload.getD [])
        (preludeMsgHdrSize.toNat + m.hdr.datalen.toNat)) })

def readMessageHeader (fuel : ℕ) (m : Msg) (s : σ) : Option (Ret × Msg × σ) :=
  let count := (preludeMsgHdrSize - m.headerIndex).toNat
  (readMessageData rd fuel m.hdrbuf m.headerIndex.toNat 0 count s).map fun (hdrbuf, size, ret, s) =>
    let m := { m with hdrbuf, headerIndex := m.headerIndex + UInt32.ofNat size }
    match ret with
    | .error e => (.error e, m, s)
    | .ok () => let (ret, m) := completeHeader m; (ret, m, s)

/-- The message object once its last frame has been read. -/
def Msg.finish (m : Msg) : Msg :=
  { m with
    hdr := { m.hdr with isFragment := 0 }
    headerIndex := 0
    readIndex := preludeMsgHdrSize }

def readMessageContent (fuel : ℕ) (msgRead : Option Msg → σ → Option (Ret × Option Msg × σ))
    (m : Msg) (s : σ) : Option (Ret × Option Msg × σ) :=
  let count := (m.hdr.datalen + preludeMsgHdrSize - m.readIndex).toNat
  (readMessageData rd fuel (m.payload.getD []) m.readIndex.toNat 0 count s).bind
    fun (payload, size, ret, s) =>
      let m := { m with payload := some payload, readIndex := m.readIndex + UInt32.ofNat size }
      match ret with
      | .error e => some (.error e, some m, s)
      | .ok () =>
        if m.hdr.isFragment ≠ 0 then msgRead (some { m with headerIndex := 0 }) s
        else some (.ok (), some m.finish, s)

def Msg.fresh : Msg where
  readIndex := preludeMsgHdrSize
  headerIndex := 0
  writeIndex := 0
  fdWriteIndex := 0
  hdr := ⟨0, 0, preludeMsgPriorityNone, 0, 0, 0, 0⟩
  hdrbuf := List.replicate 16 0
  payload := none

/-- Destroy the message and reset the pointer, unless the caller is to try again. -/
def releaseOnError {σ : Type*} : Ret × Option Msg × σ → Ret × Option Msg × σ
  | (.error e, msg, s) => if e ≠ .eagain then (.error e, none, s) else (.error e, msg, s)
  | (.ok (), msg, s) => (.ok (), msg, s)

def preludeMsgRead : ℕ → Option Msg → σ → Option (Ret × Option Msg × σ)
  | 0, _, _ => none
  | fuel + 1, msg, s =>
    let m := msg.getD Msg.fresh
    let header := if m.headerIndex ≠ preludeMsgHdrSize then readMessageHeader rd (fuel + 1) m s
      else some (.ok (), m, s)
    (header.bind fun (ret, m, s) =>
      if m.payload.isSome ∧ ret = .ok () then
        readMessageContent rd (fuel + 1) (preludeMsgRead fuel) m s
      else some (ret, some m, s)).map releaseOnError

end Source

/-- A byte stream as `prelude_io_read` delivers it. -/
abbrev Stream := Delivery UInt8 ErrorCode.eagain

theorem eof_ne_eagain : ErrorCode.eof ≠ .eagain := by decide

/-- Reading from a stream; its length bounds the rounds of every loop. -/
def readMsg (msg : Option Msg) (d : Stream) : Option (Ret × Option Msg × Stream) :=
  preludeMsgRead Delivery.read (d.pending.length + 1) msg d

end LibPrelude
