import LibPrelude.Message.Send

/-! # Framing round trip

Chunks are set into a message buffer that is flushed to a byte stream whenever it
is full. Reading the stream yields the messages with the same chunks, wherever
the buffer boundary cut them.
-/

namespace LibPrelude

open Bytes Resume

namespace Msg

/-- A message object with the buffer of a message buffer, written from its start. -/
structure Buffer (m : Msg) : Prop where
  payload : ∃ p, m.payload = some p ∧ p.length = 8192
  datalen : m.hdr.datalen = msgbufSize
  fdWriteIndex : m.fdWriteIndex = 0

/-- A buffer with data that is not flushed yet. -/
structure Filling (m : Msg) (body : List UInt8) : Prop extends m.Buffer where
  content : ∀ p, m.payload = some p → (p.drop 16).take body.length = body
  headerIndex : m.headerIndex = 0
  writeIndex : m.writeIndex.toNat = 16 + body.length
  length_le : 16 + body.length ≤ 8192

variable {m : Msg} {body : List UInt8}

theorem Filling.holds (h : m.Filling body) (hne : body ≠ []) : m.Holds body := by
  obtain ⟨p, hp, hl⟩ := h.payload
  have hle := h.length_le
  exact ⟨hne, by omega, p, hp, by omega, h.content p hp, .inl ⟨h.headerIndex, h.writeIndex⟩⟩

theorem Buffer.of_stamped {m' : Msg} (h : m.Buffer) (hs : m.Stamped m')
    (hi : m'.fdWriteIndex = 0) : m'.Buffer := by
  obtain ⟨p, hp, hl⟩ := h.payload
  obtain ⟨q, q', hq, hq', hql⟩ := hs.payload
  obtain rfl := Option.some.inj (hp.symm.trans hq)
  exact ⟨⟨q', hq', hql.trans hl⟩, hs.datalen.trans h.datalen, hi⟩

theorem Buffer.filling_nil (h : m.Buffer) (hi : m.headerIndex = 0)
    (hw : m.writeIndex = preludeMsgHdrSize) : m.Filling [] :=
  ⟨h, by simp, hi, by rw [hw]; rfl, by simp⟩

theorem Buffer.filling_recycled (h : m.Buffer) :
    (preludeMsgSetPriority (preludeMsgRecycle m) preludeMsgPriorityNone).Filling [] :=
  Buffer.filling_nil ⟨h.payload, h.datalen, rfl⟩ rfl rfl

theorem Filling.put (hm : m.Filling body) {p : List UInt8} (ys : List UInt8)
    (hp : m.payload = some p) (hys : 16 + body.length + ys.length ≤ 8192) (flag : UInt8) :
    ∃ q, store p m.writeIndex.toNat ys = some q ∧
      ({ m with
        payload := some q
        writeIndex := m.writeIndex + UInt32.ofNat ys.length
        hdr := { m.hdr with isFragment := flag } } : Msg).Filling (body ++ ys) := by
  obtain ⟨p', hp', hl⟩ := hm.payload
  obtain rfl := Option.some.inj (hp.symm.trans hp')
  have hwi := hm.writeIndex
  have hst : store p m.writeIndex.toNat ys = some _ := store_eq_some (by omega)
  have hsplit : p.take m.writeIndex.toNat = p.take 16 ++ body := by
    rw [hwi, List.take_add, hm.content p hp]
  have h16 : (p.take 16).length = 16 := by simp; omega
  refine ⟨_, hst, ⟨⟨⟨_, rfl, (length_of_store hst).trans hl⟩, hm.datalen, hm.fdWriteIndex⟩, ?_,
    hm.headerIndex, ?_, by simp; omega⟩⟩
  · rintro _ ⟨⟩
    rw [hsplit, List.append_assoc, List.append_assoc, List.drop_left' h16, ← List.append_assoc,
      List.take_left]
  · change (m.writeIndex + UInt32.ofNat ys.length).toNat = _
    rw [toNat_add_ofNat (by omega), hwi, List.length_append, Nat.add_assoc]

theorem filling_dynamicNew : preludeMsgDynamicNew.Filling [] :=
  Buffer.filling_nil ⟨⟨_, rfl, List.length_replicate⟩, rfl, rfl⟩ rfl rfl

end Msg

section Flush

variable {m : Msg} {body : List UInt8} (async : Bool) (l : Link)

abbrev flushCb (async : Bool) : Msg → Link → Option (Ret × Msg × Link) :=
  defaultSendMsgCb Link.sendMsg async

/-- The buffer that a flush leaves is empty; one reused keeps its tag and fragment flag. -/
structure Flushed (async : Bool) (m m' : Msg) : Prop where
  filling : m'.Filling []
  isFragment : m'.hdr.isFragment = if async then 0 else m.hdr.isFragment

theorem flushCb_spec (hm : m.Holds body) (hb : m.Buffer) :
    ∃ m' l', ∃ f : Frame, flushCb async m l = some (.ok (), m', l') ∧
      f.hdr.Describes m.hdr body.length ∧ f.body = body ∧ l'.out = l.out ++ f.bytes ∧
      Flushed async m m' := by
  obtain ⟨m₁, l', f, hsend, hd, hbody, hout, hst, hfd⟩ := Link.sendMsg_spec hm hb.fdWriteIndex l
  have hb₁ := hb.of_stamped hst hfd
  cases async with
  | true =>
    refine ⟨preludeMsgDynamicNew, l', f, ?_, hd, hbody, hout, Msg.filling_dynamicNew, rfl⟩
    simp [flushCb, defaultSendMsgCb, doSendMsgAsync, hsend]
  | false =>
    refine ⟨_, l', f, ?_, hd, hbody, hout, hb₁.filling_recycled, hst.isFragment⟩
    simp [flushCb, defaultSendMsgCb, doSendMsg, hsend]

theorem flushCb_empty (hm : m.Filling []) :
    ∃ m', flushCb async m l = some (.ok (), m', l) ∧ Flushed async m m' := by
  have hw : m.writeIndex = preludeMsgHdrSize := by
    rw [← UInt32.toNat_inj, hm.writeIndex]; rfl
  have hsend := Link.sendMsg_empty hm.fdWriteIndex hw l
  cases async with
  | true =>
    refine ⟨preludeMsgDynamicNew, ?_, Msg.filling_dynamicNew, rfl⟩
    simp [flushCb, defaultSendMsgCb, doSendMsgAsync, hsend]
  | false =>
    refine ⟨_, ?_, hm.toBuffer.filling_recycled, rfl⟩
    simp [flushCb, defaultSendMsgCb, doSendMsg, hsend]

end Flush

section Fill

variable (async : Bool)

/-- The fragments flushed while data was appended, and the data left in the buffer. -/
structure Appended (m : Msg) (l : Link) (body xs : List UInt8) (m' : Msg) (l' : Link)
    (fs : List Frame) (body' : List UInt8) : Prop where
  filling : m'.Filling body'
  isFragment : m'.hdr.isFragment = 0
  out : l'.out = l.out ++ wire fs
  data : body ++ xs = bodies fs ++ body'
  flagged : ∀ f ∈ fs, f.hdr.isFragment ≠ 0
  version : ∀ f ∈ fs, f.hdr.version = preludeMsgVersion
  nonempty : ∀ f ∈ fs, f.body ≠ []
  left : fs ≠ [] → body' ≠ []
  tag : (fs.head?.map (·.hdr.tag)).getD m'.hdr.tag = m.hdr.tag

theorem Appended.trans {m₁ m₂ m₃ : Msg} {l₁ l₂ l₃ : Link} {body xs ys body₂ body₃ : List UInt8}
    {fs gs : List Frame} (h₁ : Appended m₁ l₁ body xs m₂ l₂ fs body₂)
    (h₂ : Appended m₂ l₂ body₂ ys m₃ l₃ gs body₃) :
    Appended m₁ l₁ body (xs ++ ys) m₃ l₃ (fs ++ gs) body₃ where
  filling := h₂.filling
  isFragment := h₂.isFragment
  out := by rw [h₂.out, h₁.out, wire_append, List.append_assoc]
  data := by
    rw [← List.append_assoc, h₁.data, List.append_assoc, h₂.data, bodies_append, List.append_assoc]
  flagged := List.forall_mem_append.mpr ⟨h₁.flagged, h₂.flagged⟩
  version := List.forall_mem_append.mpr ⟨h₁.version, h₂.version⟩
  nonempty := List.forall_mem_append.mpr ⟨h₁.nonempty, h₂.nonempty⟩
  left := by
    intro hne
    by_cases hgs : gs = []
    · have hfs : fs ≠ [] := by simpa [hgs] using hne
      have hd := h₂.data
      rw [hgs, bodies_nil, List.nil_append] at hd
      rw [← hd]
      exact List.append_ne_nil_of_left_ne_nil (h₁.left hfs) _
    · exact h₂.left hgs
  tag := by
    have ht := h₁.tag
    cases fs with
    | nil => exact h₂.tag.trans ht
    | cons f fs => simpa using ht

theorem setData_spec (fuel : ℕ) {m : Msg} {body : List UInt8} (hm : m.Filling body)
    (hfrag : m.hdr.isFragment = 0) (xs : List UInt8) (l : Link)
    (hf : xs.length + (if 16 + body.length < 8192 then 0 else 1) < fuel) :
    ∃ m' l' fs body', setData (some (flushCb async)) fuel m xs l = some (.ok (), m', l') ∧
      Appended m l body xs m' l' fs body' := by
  induction fuel generalizing m body xs l with
  | zero => omega
  | succ fuel ih =>
    obtain ⟨p, hp, hl⟩ := hm.payload
    have hle := hm.length_le
    have hwi := hm.writeIndex
    have hsz : msgbufSize.toNat = 8192 := rfl
    have hrem : (m.hdr.datalen - m.writeIndex).toNat = 8192 - (16 + body.length) := by
      rw [hm.datalen, UInt32.toNat_sub_of_le _ _ (by rw [UInt32.le_iff_toNat_le, hsz]; omega), hsz,
        hwi]
    simp only [setData, hrem, hp, Option.bind_eq_bind, Option.bind_some]
    by_cases hbig : xs.length > 8192 - (16 + body.length)
    · have htake : (xs.take (8192 - (16 + body.length))).length = 8192 - (16 + body.length) := by
        simp; omega
      obtain ⟨q, hst, hfill⟩ := hm.put (xs.take (8192 - (16 + body.length))) hp (by omega) 1
      rw [htake] at hfill
      have hne : body ++ xs.take (8192 - (16 + body.length)) ≠ [] :=
        List.ne_nil_of_length_pos (by simp; omega)
      obtain ⟨m₁, l₁, f, hcb, hd, hbody, hout, hflushed⟩ :=
        flushCb_spec async l (hfill.holds hne) hfill.toBuffer
      obtain ⟨m', l', fs, body', hset, happ⟩ :=
        ih (m := { m₁ with
            headerIndex := 0
            writeIndex := preludeMsgHdrSize
            hdr := { m₁.hdr with isFragment := 0 } })
          (Msg.Buffer.filling_nil ⟨hflushed.filling.payload, hflushed.filling.datalen,
            hflushed.filling.fdWriteIndex⟩ rfl rfl)
          rfl (xs.drop (8192 - (16 + body.length))) l₁ (by
            simp only [List.length_drop, List.length_nil]
            split at hf <;> simp <;> omega)
      refine ⟨m', l', f :: fs, body', ?_, ?_⟩
      · simpa [hbig, hst, callAllocCb, hcb] using hset
      · have hlast : fs = [] → body' ≠ [] := by
          rintro rfl hnil
          have := congrArg List.length happ.data
          simp [hnil] at this
          omega
        refine ⟨happ.filling, happ.isFragment, ?_, ?_, ?_, ?_, ?_, ?_, hd.tag⟩
        · rw [happ.out, hout, wire_cons, List.append_assoc]
        · have hdata := happ.data
          rw [List.nil_append] at hdata
          rw [bodies_cons, hbody, List.append_assoc, ← hdata, List.append_assoc,
            List.take_append_drop]
        · refine List.forall_mem_cons.mpr ⟨?_, happ.flagged⟩
          rw [hd.isFragment]
          exact (by decide : (1 : UInt8) ≠ 0)
        · exact List.forall_mem_cons.mpr ⟨hd.version, happ.version⟩
        · exact List.forall_mem_cons.mpr ⟨hbody ▸ hne, happ.nonempty⟩
        · intro _
          by_cases hfs : fs = []
          · exact hlast hfs
          · exact happ.left hfs
    · obtain ⟨q, hst, hfill⟩ := hm.put xs hp (by omega) m.hdr.isFragment
      refine ⟨_, l, [], body ++ xs, ?_, hfill, hfrag, ?_, ?_, List.forall_mem_nil _,
        List.forall_mem_nil _, List.forall_mem_nil _, fun h => absurd rfl h, rfl⟩
      · simp [hbig, hst]
      · simp
      · simp

theorem preludeMsgbufSet_spec {m : Msg} {body : List UInt8} (hm : m.Filling body)
    (hfrag : m.hdr.isFragment = 0) (chunk : UInt8 × List UInt8) (hlen : chunk.2.length < 2 ^ 32)
    (l : Link) :
    ∃ m' l' fs body', preludeMsgbufSet Link.sendMsg async m chunk.1 chunk.2 l =
        some (.ok (), m', l') ∧ Appended m l body (chunkBytes chunk) m' l' fs body' := by
  have hfuel (n : ℕ) (b : List UInt8) :
      n + (if 16 + b.length < 8192 then 0 else 1) ≤ n + 1 := by split <;> omega
  obtain ⟨m₁, l₁, fs₁, body₁, hset₁, h₁⟩ :=
    setData_spec async (chunk.2.length + 6) hm hfrag [chunk.1] l
    ((hfuel _ _).trans_lt (by simp))
  obtain ⟨m₂, l₂, fs₂, body₂, hset₂, h₂⟩ :=
    setData_spec async (chunk.2.length + 6) h₁.filling h₁.isFragment
    (leBytes 4 (htonl (UInt32.ofNat chunk.2.length)).toNat) l₁
    ((hfuel _ _).trans_lt (by simp))
  obtain ⟨m₃, l₃, fs₃, body₃, hset₃, h₃⟩ :=
    setData_spec async (chunk.2.length + 6) h₂.filling h₂.isFragment chunk.2 l₂
    ((hfuel _ _).trans_lt (by omega))
  refine ⟨m₃, l₃, fs₁ ++ (fs₂ ++ fs₃), body₃, ?_, ?_⟩
  · simp only [flushCb] at hset₁ hset₂ hset₃
    simp only [preludeMsgbufSet, preludeMsgSet, hset₁, hset₂, hset₃, Option.bind_eq_bind,
      Option.bind_some]
  · have hbytes : chunkBytes chunk =
        [chunk.1] ++ (leBytes 4 (htonl (UInt32.ofNat chunk.2.length)).toNat ++ chunk.2) := by
      rw [leBytes_htonl, UInt32.toNat_ofNat', Nat.mod_eq_of_lt hlen]
      rfl
    rw [hbytes]
    exact h₁.trans (h₂.trans h₃)

theorem preludeMsgbufMarkEnd_spec {m : Msg} {body : List UInt8} (hm : m.Filling body)
    (hne : body ≠ []) (hfrag : m.hdr.isFragment = 0) (l : Link) :
    ∃ m' l', ∃ f : Frame,
      preludeMsgbufMarkEnd Link.sendMsg Link.gettimeofday async m l = some (m', l') ∧
      m'.Filling [] ∧ m'.hdr.isFragment = 0 ∧ l'.out = l.out ++ f.bytes ∧ f.body = body ∧
      f.hdr.Describes m.hdr body.length := by
  obtain ⟨p, hp, hl⟩ := hm.payload
  have hle := hm.length_le
  have hwi := hm.writeIndex
  have hpos := List.length_pos_iff.mpr hne
  have h16 : preludeMsgHdrSize.toNat = 16 := rfl
  have hdata : m.writeIndex - m.headerIndex - preludeMsgHdrSize ≠ 0 := by
    rw [hm.headerIndex, UInt32.sub_zero, ne_eq, ← UInt32.toNat_inj, UInt32.toNat_sub_of_le _ _ (by
      rw [UInt32.le_iff_toNat_le, h16]; omega), hwi, h16, UInt32.toNat_zero]
    omega
  obtain ⟨m₁, p₁, h, hwrite, hst, hp₁, hl₁, hp₁eq, hfd, -, hd⟩ :=
    Msg.writeMessageHeader_spec Link.gettimeofday hp hm.headerIndex (by omega) hwi l
  have hb₁ : m₁.Buffer := hm.toBuffer.of_stamped hst (hfd.trans hm.fdWriteIndex)
  have hbody₁ : (p₁.drop 16).take body.length = body := by
    rw [hp₁eq, ← h.length_bytes, List.drop_left, h.length_bytes, hm.content p hp]
  have hw₁ : m₁.writeIndex.toNat = 16 + body.length := by rw [hst.writeIndex, hwi]
  have hfrag₁ : m₁.hdr.isFragment = 0 := hst.isFragment.trans hfrag
  have hend : (m₁.writeIndex + preludeMsgHdrSize).toNat = 32 + body.length := by
    rw [toNat_add_of_lt (by rw [h16]; omega), hw₁, h16]
    omega
  have hfull : m₁.writeIndex + preludeMsgHdrSize + minimumFragmentDataSize > m₁.hdr.datalen ↔
      8192 < 33 + body.length := by
    have hmin : minimumFragmentDataSize.toNat = 1 := rfl
    have hsz : msgbufSize.toNat = 8192 := rfl
    rw [gt_iff_lt, UInt32.lt_iff_toNat_lt, hb₁.datalen, hsz,
      toNat_add_of_lt (by rw [hend, hmin]; omega), hend, hmin]
    omega
  have hmark : preludeMsgMarkEnd (some (flushCb async)) Link.gettimeofday m l =
      if 8192 < 33 + body.length then
        (callAllocCb (some (flushCb async)) m₁ l.gettimeofday.2).bind fun r => some (r.2.1, r.2.2)
      else some ({ m₁ with
        headerIndex := m₁.writeIndex
        writeIndex := m₁.writeIndex + preludeMsgHdrSize }, l.gettimeofday.2) := by
    simp only [preludeMsgMarkEnd, if_neg hdata, hwrite, Option.bind_eq_bind, Option.bind_some,
      hfull]
  by_cases hlarge : 8192 < 33 + body.length
  · have hfill₁ : m₁.Filling body :=
      ⟨hb₁, fun q hq => by rwa [Option.some.inj (hq.symm.trans hp₁)],
        hst.headerIndex.trans hm.headerIndex, hw₁, hle⟩
    obtain ⟨m₂, l', f, hcb, hdesc, hbody, hout, hflushed⟩ :=
      flushCb_spec async l.gettimeofday.2 (hfill₁.holds hne) hb₁
    obtain ⟨m', hcb', hflushed'⟩ := flushCb_empty async l' (m := { m₂ with
        headerIndex := 0
        writeIndex := preludeMsgHdrSize
        hdr := { m₂.hdr with isFragment := 0 } })
      (Msg.Buffer.filling_nil ⟨hflushed.filling.payload, hflushed.filling.datalen,
        hflushed.filling.fdWriteIndex⟩ rfl rfl)
    refine ⟨m', l', f, ?_, hflushed'.filling, ?_, hout, hbody, hst.describes.mp hdesc⟩
    · simp only [flushCb] at hmark hcb hcb'
      simp [preludeMsgbufMarkEnd, hmark, hlarge, callAllocCb, hcb, hcb']
    · rw [hflushed'.isFragment]
      simp
  · have hholds : ({ m₁ with
        headerIndex := m₁.writeIndex
        writeIndex := m₁.writeIndex + preludeMsgHdrSize } : Msg).Holds body := by
      refine ⟨hne, by omega, p₁, hp₁, by omega, hbody₁, .inr ⟨fun h0 => ?_, hfrag₁, hend, h, ?_,
        hst.describes.mpr hd⟩⟩
      · have := congrArg UInt32.toNat (show m₁.writeIndex = 0 from h0)
        rw [hw₁, UInt32.toNat_zero] at this
        omega
      · rw [hp₁eq, ← h.length_bytes, List.take_left]
    obtain ⟨m', l', f, hcb, hdesc, hbody, hout, hflushed⟩ :=
      flushCb_spec async l.gettimeofday.2 hholds ⟨hb₁.payload, hb₁.datalen, hb₁.fdWriteIndex⟩
    refine ⟨m', l', f, ?_, hflushed.filling, ?_, hout, hbody, hst.describes.mp hdesc⟩
    · simp only [flushCb] at hmark hcb
      simp [preludeMsgbufMarkEnd, hmark, hlarge, hcb]
    · rw [hflushed.isFragment]
      simpa using fun _ => hfrag₁

end Fill

/-- A message to write: the tag the caller sets, if any, and the chunks. -/
structure Outgoing where
  tag : Option UInt8
  chunks : List (UInt8 × List UInt8)

namespace Outgoing

def payload (o : Outgoing) : List UInt8 := o.chunks.flatMap chunkBytes

end Outgoing

section Write

variable (async : Bool)

/-- Set chunks until an error. -/
def setChunks : List (UInt8 × List UInt8) → Msg → Link → Option (Ret × Msg × Link)
  | [], m, l => some (.ok (), m, l)
  | chunk :: chunks, m, l => do
    match ← preludeMsgbufSet Link.sendMsg async m chunk.1 chunk.2 l with
    | (.ok (), m, l) => setChunks chunks m l
    | (.error e, m, l) => some (.error e, m, l)

def writeMsg (o : Outgoing) (m : Msg) (l : Link) : Option (Ret × Msg × Link) := do
  match ← setChunks async o.chunks (o.tag.elim m (preludeMsgSetTag m)) l with
  | (.ok (), m, l) =>
    let (m, l) ← preludeMsgbufMarkEnd Link.sendMsg Link.gettimeofday async m l
    some (.ok (), m, l)
  | (.error e, m, l) => some (.error e, m, l)

def writeMsgs : List Outgoing → Msg → Link → Option (Ret × Msg × Link)
  | [], m, l => some (.ok (), m, l)
  | o :: os, m, l => do
    match ← writeMsg async o m l with
    | (.ok (), m, l) => writeMsgs os m l
    | (.error e, m, l) => some (.error e, m, l)

theorem setChunks_spec {m : Msg} {body : List UInt8} (hm : m.Filling body)
    (hfrag : m.hdr.isFragment = 0) {chunks : List (UInt8 × List UInt8)}
    (hlen : ∀ c ∈ chunks, c.2.length < 2 ^ 32) (l : Link) :
    ∃ m' l' fs body', setChunks async chunks m l = some (.ok (), m', l') ∧
      Appended m l body (chunks.flatMap chunkBytes) m' l' fs body' := by
  induction chunks generalizing m body l with
  | nil =>
    exact ⟨m, l, [], body, rfl, hm, hfrag, by simp, by simp, List.forall_mem_nil _,
      List.forall_mem_nil _, List.forall_mem_nil _, fun h => absurd rfl h, rfl⟩
  | cons c cs ih =>
    rw [List.forall_mem_cons] at hlen
    obtain ⟨m₁, l₁, fs₁, body₁, hset₁, h₁⟩ := preludeMsgbufSet_spec async hm hfrag c hlen.1 l
    obtain ⟨m₂, l₂, fs₂, body₂, hset₂, h₂⟩ := ih h₁.filling h₁.isFragment hlen.2 l₁
    exact ⟨m₂, l₂, fs₁ ++ fs₂, body₂, by simp [setChunks, hset₁, hset₂], h₁.trans h₂⟩

theorem length_chunk_lt {chunks : List (UInt8 × List UInt8)} {n : ℕ}
    (h : (chunks.flatMap chunkBytes).length < n) : ∀ c ∈ chunks, c.2.length < n := by
  intro c hc
  have hsub := (List.sublist_flatten_of_mem (List.mem_map_of_mem (f := chunkBytes) hc)).length_le
  rw [length_chunkBytes] at hsub
  rw [List.flatMap_def] at h
  omega

/-- Writing a message puts its frames on the stream and leaves an empty buffer. -/
theorem writeMsg_spec {m : Msg} (hm : m.Filling []) (hfrag : m.hdr.isFragment = 0) {o : Outgoing}
    (hne : o.chunks ≠ []) (hmax : o.payload.length < maxMessageSize) (l : Link) :
    ∃ m' l', ∃ w : WireMsg, writeMsg async o m l = some (.ok (), m', l') ∧ m'.Filling [] ∧
      m'.hdr.isFragment = 0 ∧ l'.out = l.out ++ w.bytes ∧ w.data = o.payload ∧
      ∀ t, o.tag = some t → w.head.hdr.tag = t := by
  have hm₀ : (o.tag.elim m (preludeMsgSetTag m)).Filling [] := by
    cases o.tag with
    | none => exact hm
    | some t => exact ⟨⟨hm.payload, hm.datalen, hm.fdWriteIndex⟩, hm.content, hm.headerIndex,
        hm.writeIndex, hm.length_le⟩
  have hfrag₀ : (o.tag.elim m (preludeMsgSetTag m)).hdr.isFragment = 0 := by
    cases o.tag <;> exact hfrag
  have hlen := length_chunk_lt (n := 2 ^ 32) (hmax.trans (by unfold maxMessageSize; simp))
  obtain ⟨m₁, l₁, fs, body, hset, happ⟩ := setChunks_spec async hm₀ hfrag₀ hlen l
  have hdata := happ.data
  rw [List.nil_append] at hdata
  have hbody : body ≠ [] := by
    by_cases hfs : fs = []
    · obtain ⟨c, cs, hc⟩ := List.exists_cons_of_ne_nil hne
      rw [hfs, bodies_nil, List.nil_append, hc, List.flatMap_cons, chunkBytes] at hdata
      rw [← hdata]
      simp
    · exact happ.left hfs
  obtain ⟨m', l', f, hmark, hfill, hfrag', hout, hfb, hd⟩ :=
    preludeMsgbufMarkEnd_spec async happ.filling hbody happ.isFragment l₁
  have hbodies : bodies (fs ++ [f]) = o.payload := by
    rw [bodies_append, bodies_cons, bodies_nil, List.append_nil, hfb, ← hdata]
    rfl
  refine ⟨m', l', ⟨fs, f, happ.flagged, hd.isFragment.trans happ.isFragment, ?_, ?_, ?_⟩, ?_,
    hfill, hfrag', ?_, hbodies, ?_⟩
  · exact List.forall_mem_append.mpr ⟨happ.version, by simpa using hd.version⟩
  · exact List.forall_mem_append.mpr ⟨happ.nonempty, by simpa [hfb] using hbody⟩
  · rw [hbodies]; exact hmax
  · simp [writeMsg, hset, hmark]
  · simp [hout, happ.out, WireMsg.bytes, WireMsg.frames]
  · intro t ht
    have htag := happ.tag
    rw [ht, Option.elim_some] at htag
    change (fs.headD f).hdr.tag = t
    cases fs with
    | nil => exact hd.tag.trans htag
    | cons g gs => exact htag

theorem writeMsgs_spec {m : Msg} (hm : m.Filling []) (hfrag : m.hdr.isFragment = 0)
    {os : List Outgoing} (hne : ∀ o ∈ os, o.chunks ≠ [])
    (hmax : ∀ o ∈ os, o.payload.length < maxMessageSize) (l : Link) :
    ∃ m' l', ∃ ws : List WireMsg, writeMsgs async os m l = some (.ok (), m', l') ∧
      l'.out = l.out ++ ws.flatMap WireMsg.bytes ∧
      List.Forall₂ (fun o w => WireMsg.data w = Outgoing.payload o ∧
        ∀ t, o.tag = some t → w.head.hdr.tag = t) os ws := by
  induction os generalizing m l with
  | nil => exact ⟨m, l, [], rfl, by simp, .nil⟩
  | cons o os ih =>
    rw [List.forall_mem_cons] at hne hmax
    obtain ⟨m₁, l₁, w, hw, hm₁, hfrag₁, hout, hdata, htag⟩ :=
      writeMsg_spec async hm hfrag hne.1 hmax.1 l
    obtain ⟨m', l', ws, hws, hout', hall⟩ := ih hm₁ hfrag₁ hne.2 hmax.2 l₁
    refine ⟨m', l', w :: ws, by simp [writeMsgs, hw, hws], ?_, .cons ⟨hdata, htag⟩ hall⟩
    rw [hout', hout, List.flatMap_cons, List.append_assoc]

end Write

/-- Messages written through a message buffer and read back have the same chunks, the tag of
their first frame, and no empty frame. -/
theorem framing_round_trip (async : Bool) (os : List Outgoing) (l : Link)
    (hne : ∀ o ∈ os, o.chunks ≠ []) (hmax : ∀ o ∈ os, o.payload.length < maxMessageSize)
    (hl : l.out = []) :
    ∃ m' l', ∃ ws : List WireMsg,
      writeMsgs async os preludeMsgDynamicNew l = some (.ok (), m', l') ∧
      l'.out = ws.flatMap WireMsg.bytes ∧
      (∀ w ∈ ws, ∀ f ∈ w.frames, f.body ≠ []) ∧
      List.Forall₂ (fun o w => ∀ t, o.tag = some t → (WireMsg.head w).hdr.tag = t) os ws ∧
      ∀ d : Stream, d.pending = l'.out → ∀ fuel,
        Delivery.blocks d.turns + d.pending.length < fuel → ∃ ms,
          readAll fuel none d = some (ms, d.final) ∧
          List.Forall₂ (fun w m => m.hdr.tag = (WireMsg.head w).hdr.tag) ws ms ∧
          List.Forall₂ (fun o m => ∀ out, ∀ k > o.chunks.length,
            getAll k m out = some (o.chunks, .eof)) os ms := by
  obtain ⟨m', l', ws, hws, hout, hall⟩ :=
    writeMsgs_spec async Msg.filling_dynamicNew rfl hne hmax l
  rw [hl, List.nil_append] at hout
  refine ⟨m', l', ws, hws, hout, fun w _ => w.nonempty, hall.imp fun _ _ h => h.2,
    fun d hd fuel hf => ⟨ws.map WireMsg.msg, readAll_wireMsgs (hd.trans hout) hf, ?_, ?_⟩⟩
  · rw [List.forall₂_map_right_iff]
    exact List.forall₂_same.mpr fun w _ => w.head_msg.1
  · rw [List.forall₂_map_right_iff]
    refine hall.imp fun o w h out k hk => ?_
    refine getAll_chunks w.readable_msg w.payload_msg ?_ hk out
    rw [show w.msg.readIndex.toNat = (List.replicate 16 (0 : UInt8)).length by simp; rfl,
      List.drop_left, h.1]
    rfl

theorem framing_round_trip_two_chunks :
    let os : List Outgoing := [⟨some 7, [(1, [2, 3]), (4, [])]⟩]
    let l : Link := ⟨[], [3, 0, 20], fun _ => ⟨0, 0⟩, 0⟩
    ∃ m' l' ws, writeMsgs true os preludeMsgDynamicNew l = some (.ok (), m', l') ∧
      l'.out = ws.flatMap WireMsg.bytes ∧
      List.Forall₂ (fun o w => ∀ t, o.tag = some t → (WireMsg.head w).hdr.tag = t) os ws := by
  intro os l
  obtain ⟨m', l', ws, hws, hout, -, htag, -⟩ :=
    framing_round_trip true os l (by decide) (by decide) rfl
  exact ⟨m', l', ws, hws, hout, htag⟩

end LibPrelude
