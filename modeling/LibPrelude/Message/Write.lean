import LibPrelude.Message.Basic

/-! # Writing messages

Data is copied into the buffer of a message object. When the buffer is full the
message is flushed through a callback as a fragment, and filling goes on in the
object that the callback leaves. A copy that would leave the buffer, a failed
assertion and a call through a null pointer have no result.
-/

namespace LibPrelude

open Bytes

section Flush

variable {σ : Type}

/-- The callback that emits a message and leaves one to write to; none for a plain message. -/
abbrev FlushMsgCb (σ : Type) := Option (Msg → σ → Option (Ret × Msg × σ))

variable (flushMsgCb : FlushMsgCb σ) (gettimeofday : σ → Timeval × σ)

def callAllocCb (m : Msg) (s : σ) : Option (Ret × Msg × σ) := do
  let flush ← flushMsgCb
  match ← flush m s with
  | (.error e, m, s) => some (.error e, m, s)
  | (.ok (), m, s) =>
    some (.ok (), { m with
      headerIndex := 0
      writeIndex := preludeMsgHdrSize
      hdr := { m.hdr with isFragment := 0 } }, s)

/-- The header goes to `headerIndex`, with the length of the data that follows it. -/
def writeMessageHeader (m : Msg) (s : σ) : Option (Msg × σ) := do
  let dlen := htonl (m.writeIndex - m.headerIndex - preludeMsgHdrSize)
  let (tv, s) := gettimeofday s
  let hdr := { m.hdr with tvSec := htonl tv.tvSec, tvUsec := htonl tv.tvUsec }
  let payload ← m.payload
  let payload ← store payload m.headerIndex.toNat
    ([preludeMsgVersion, hdr.tag, hdr.priority, hdr.isFragment] ++ leBytes 4 dlen.toNat ++
      leBytes 4 hdr.tvSec.toNat ++ leBytes 4 hdr.tvUsec.toNat)
  some ({ m with hdr, payload := some payload }, s)

/-- Store what fits, flush and go on with the rest. -/
def setData : ℕ → Msg → List UInt8 → σ → Option (Ret × Msg × σ)
  | 0, _, _, _ => none
  | fuel + 1, m, buf, s => do
    let remaining := (m.hdr.datalen - m.writeIndex).toNat
    if flushMsgCb.isNone ∧ remaining < buf.length then none
    else if buf.length > remaining then
      let payload ← store (← m.payload) m.writeIndex.toNat (buf.take remaining)
      let m := { m with
        payload := some payload
        writeIndex := m.writeIndex + UInt32.ofNat remaining
        hdr := { m.hdr with isFragment := 1 } }
      match ← callAllocCb flushMsgCb m s with
      | (.error e, m, s) => some (.error e, m, s)
      | (.ok (), m, s) => setData fuel m (buf.drop remaining) s
    else
      let payload ← store (← m.payload) m.writeIndex.toNat buf
      some (.ok (), { m with
        payload := some payload
        writeIndex := m.writeIndex + UInt32.ofNat buf.length }, s)

def preludeMsgSet (m : Msg) (tag : UInt8) (data : List UInt8) (s : σ) :
    Option (Ret × Msg × σ) := do
  let fuel := data.length + 6
  match ← setData flushMsgCb fuel m [tag] s with
  | (.error e, m, s) => some (.error e, m, s)
  | (.ok (), m, s) =>
    match ← setData flushMsgCb fuel m (leBytes 4 (htonl (UInt32.ofNat data.length)).toNat) s with
    | (.error e, m, s) => some (.error e, m, s)
    | (.ok (), m, s) => setData flushMsgCb fuel m data s

/-- End a message in its buffer; the buffer is flushed when no other header fits behind it. -/
def preludeMsgMarkEnd (m : Msg) (s : σ) : Option (Msg × σ) :=
  if m.writeIndex - m.headerIndex - preludeMsgHdrSize = 0 then some (m, s)
  else do
    let (m, s) ← writeMessageHeader gettimeofday m s
    if m.writeIndex + preludeMsgHdrSize + minimumFragmentDataSize > m.hdr.datalen then
      let (_, m, s) ← callAllocCb flushMsgCb m s
      some (m, s)
    else
      some ({ m with
        headerIndex := m.writeIndex
        writeIndex := m.writeIndex + preludeMsgHdrSize }, s)

end Flush

section Io

variable {σ : Type} (gettimeofday : σ → Timeval × σ)
  (ioWrite : List UInt8 → σ → Except ErrorCode ℕ × σ)

/-- The end of `preludeMsgWriteR`; a short write is reported as `eagain`. -/
def finishWrite (m : Msg) (windex dlen : UInt32) : Except ErrorCode ℕ × σ → Ret × Msg × UInt32 × σ
  | (.error e, s) => (.error e, m, windex, s)
  | (.ok n, s) =>
    if windex + UInt32.ofNat n = dlen then (.ok (), m, 0, s)
    else (.error .eagain, m, windex + UInt32.ofNat n, s)

/-- Write the rest of a message from `windex` on. -/
def preludeMsgWriteR (m : Msg) (windex : UInt32) (s : σ) : Option (Ret × Msg × UInt32 × σ) :=
  if m.writeIndex - preludeMsgHdrSize = 0 then some (.ok (), m, windex, s)
  else do
    let (m', s) ← if m.headerIndex = 0 then writeMessageHeader gettimeofday m s else some (m, s)
    let dlen := if m.headerIndex ≠ 0 ∧ m.hdr.isFragment = 0 then m.writeIndex - preludeMsgHdrSize
      else m.writeIndex
    let buf ← load (← m'.payload) windex.toNat (dlen - windex).toNat
    some (finishWrite m' windex dlen (ioWrite buf s))

/-- The write index is kept in the message object. -/
def preludeMsgWrite (m : Msg) (s : σ) : Option (Ret × Msg × σ) := do
  let (ret, m, windex, s) ← preludeMsgWriteR gettimeofday ioWrite m m.fdWriteIndex s
  some (ret, { m with fdWriteIndex := windex }, s)

variable {gettimeofday ioWrite} in
/-- A write looks at the clock at most once and writes at most once. -/
theorem preludeMsgWrite_cases {m m' : Msg} {s s' : σ} {ret : Ret}
    (h : preludeMsgWrite gettimeofday ioWrite m s = some (ret, m', s')) :
    (ret = .ok () ∧ s' = s) ∨ ∃ buf s₁, (s₁ = s ∨ s₁ = (gettimeofday s).2) ∧
      s' = (ioWrite buf s₁).2 ∧
      ∀ e, ret = .error e → e = .eagain ∨ (ioWrite buf s₁).1 = .error e := by
  simp only [preludeMsgWrite, preludeMsgWriteR, Option.bind_eq_bind, Option.bind_eq_some_iff] at h
  obtain ⟨⟨ret₁, m₁, windex, s₂⟩, hw, h⟩ := h
  simp only [Option.some.injEq, Prod.mk.injEq] at h
  obtain ⟨rfl, -, rfl⟩ := h
  by_cases hempty : m.writeIndex - preludeMsgHdrSize = 0
  · rw [if_pos hempty] at hw
    simp only [Option.some.injEq, Prod.mk.injEq] at hw
    exact .inl ⟨hw.1.symm, hw.2.2.2.symm⟩
  · rw [if_neg hempty] at hw
    obtain ⟨buf, s₁, hs, m₂, dlen, hfin⟩ : ∃ buf s₁, (s₁ = s ∨ s₁ = (gettimeofday s).2) ∧
        ∃ m₂ dlen, finishWrite m₂ m.fdWriteIndex dlen (ioWrite buf s₁) =
          (ret₁, m₁, windex, s₂) := by
      by_cases hi : m.headerIndex = 0
      · rw [if_pos hi] at hw
        simp only [writeMessageHeader, Option.bind_eq_bind, Option.bind_eq_some_iff,
          Option.some.injEq] at hw
        obtain ⟨_, ⟨_, -, _, -, rfl⟩, _, -, buf, -, hfin⟩ := hw
        exact ⟨buf, _, .inr rfl, _, _, hfin⟩
      · rw [if_neg hi] at hw
        simp only [Option.bind_eq_some_iff, Option.some.injEq] at hw
        obtain ⟨_, rfl, _, -, buf, -, hfin⟩ := hw
        exact ⟨buf, _, .inl rfl, _, _, hfin⟩
    refine .inr ⟨buf, s₁, hs, ?_⟩
    rcases hio : ioWrite buf s₁ with ⟨res, s₃⟩
    rw [hio] at hfin
    cases res with
    | error e =>
      simp only [finishWrite, Prod.mk.injEq] at hfin
      obtain ⟨rfl, -, -, rfl⟩ := hfin
      exact ⟨rfl, fun e' he => .inr (by cases he; rfl)⟩
    | ok n =>
      simp only [finishWrite] at hfin
      split_ifs at hfin
      · simp only [Prod.mk.injEq] at hfin
        obtain ⟨rfl, -, -, rfl⟩ := hfin
        exact ⟨rfl, nofun⟩
      · simp only [Prod.mk.injEq] at hfin
        obtain ⟨rfl, -, -, rfl⟩ := hfin
        exact ⟨rfl, fun e' he => .inl (by cases he; rfl)⟩

end Io

/-- Make a message writable again; the payload is the one allocated with the object. -/
def preludeMsgRecycle (m : Msg) : Msg :=
  { m with
    headerIndex := 0
    fdWriteIndex := 0
    writeIndex := preludeMsgHdrSize
    readIndex := if m.readIndex ≠ 0 then preludeMsgHdrSize else m.readIndex }

def preludeMsgSetTag (m : Msg) (tag : UInt8) : Msg := { m with hdr := { m.hdr with tag } }

def preludeMsgSetPriority (m : Msg) (priority : UInt8) : Msg :=
  { m with hdr := { m.hdr with priority } }

/-- A message with room for `msgcount` chunks of `msglen` bytes in all. -/
def preludeMsgNew (msgcount msglen : ℕ) (tag priority : UInt8) : Msg :=
  let len := msglen + msgcount * 5 + preludeMsgHdrSize.toNat
  { readIndex := 0
    headerIndex := 0
    writeIndex := preludeMsgHdrSize
    fdWriteIndex := 0
    hdr := ⟨preludeMsgVersion, tag, priority, 0, UInt32.ofNat len, 0, 0⟩
    hdrbuf := List.replicate 16 0
    payload := some (List.replicate len 0) }

/-- A message with a buffer of fixed size that is flushed when it is full. -/
def preludeMsgDynamicNew : Msg where
  readIndex := 0
  headerIndex := 0
  writeIndex := preludeMsgHdrSize
  fdWriteIndex := 0
  hdr := ⟨preludeMsgVersion, 0, 0, 0, msgbufSize, 0, 0⟩
  hdrbuf := List.replicate 16 0
  payload := some (List.replicate msgbufSize.toNat 0)

section Msgbuf

variable {σ : Type} (sendMsg : Msg → σ → Option (Ret × Msg × σ))

/-- Send the message and reuse it. -/
def doSendMsg (m : Msg) (s : σ) : Option (Ret × Msg × σ) := do
  match ← sendMsg m s with
  | (.error .eagain, m, s) => some (.error .eagain, m, s)
  | (ret, m, s) => some (ret, preludeMsgSetPriority (preludeMsgRecycle m) preludeMsgPriorityNone, s)

/-- Hand the message over and go on with a new one. -/
def doSendMsgAsync (m : Msg) (s : σ) : Option (Ret × Msg × σ) := do
  match ← sendMsg m s with
  | (.error .eagain, m, s) => some (.error .eagain, m, s)
  | (_, _, s) => some (.ok (), preludeMsgDynamicNew, s)

def defaultSendMsgCb (async : Bool) (m : Msg) (s : σ) : Option (Ret × Msg × σ) :=
  if async then doSendMsgAsync sendMsg m s else doSendMsg sendMsg m s

def preludeMsgbufSet (async : Bool) (m : Msg) (tag : UInt8) (data : List UInt8) (s : σ) :
    Option (Ret × Msg × σ) :=
  preludeMsgSet (some (defaultSendMsgCb sendMsg async)) m tag data s

def preludeMsgbufMarkEnd (gettimeofday : σ → Timeval × σ) (async : Bool) (m : Msg) (s : σ) :
    Option (Msg × σ) := do
  let (m, s) ← preludeMsgMarkEnd (some (defaultSendMsgCb sendMsg async)) gettimeofday m s
  let (_, m, s) ← defaultSendMsgCb sendMsg async m s
  some (m, s)

end Msgbuf

theorem leBytes_htonl (x : UInt32) : leBytes 4 (htonl x).toNat = beBytes 4 x.toNat := by
  have hlt : ofLe (beBytes 4 x.toNat) < 2 ^ 32 := by simpa using ofLe_lt (beBytes 4 x.toNat)
  have h := beBytes_ofBe (beBytes 4 x.toNat).reverse
  rw [List.length_reverse, length_beBytes] at h
  rw [htonl, UInt32.toNat_ofNat_of_lt' hlt, leBytes, ofLe, h, List.reverse_reverse]

end LibPrelude
