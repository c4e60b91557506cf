import LibPrelude.Idmef.MessageReceived

/-! # Messages that are sent on

What was read of an object is written as the object itself, chunk by chunk, also on a
machine with another byte order. So a manager that reads messages and sends them to its
parent passes on what it got.
-/

namespace LibPrelude

open Bytes Resume

namespace IdmefMessage

variable (order order' : ByteOrder) (now : IdmefTime)

section Relay

variable {σ : Type} (sendMsg : Msg → σ → Option (Ret × Msg × σ)) (async : Bool)

theorem hostNumber_represent (size v : ℕ) (h : v < 256 ^ size) :
    hostNumber order (represent order size v) = v := by
  have hv : ((v : ℤ) % 256 ^ size).toNat = v := by
    rw [Int.emod_eq_of_lt (by positivity) (by exact_mod_cast h), Int.toNat_natCast]
  cases order with
  | big =>
    simp only [hostNumber, represent.eq_def, hv]
    exact ofBe_beBytes_of_lt h
  | little =>
    simp only [hostNumber, represent.eq_def, hv]
    exact ofLe_leBytes_of_lt h

theorem idmefDataWrite_received {d : IdmefData} (h : DataSendable d) (tag : UInt8) :
    idmefDataWrite sendMsg async order' (some (receivedData order order' d)) tag =
      idmefDataWrite sendMsg async order (some d) tag := by
  have hnum (bytes : List UInt8) :
      hostNumber order' (represent order' bytes.length (hostNumber order bytes)) =
        hostNumber order bytes := hostNumber_represent order' _ _ (hostNumber_lt order bytes)
  have hone {bytes : List UInt8} (hl : bytes.length = 1) :
      (represent order' bytes.length (hostNumber order bytes)).headD 0 = bytes.headD 0 := by
    obtain ⟨b, rfl⟩ := List.length_eq_one_iff.mp hl
    rw [hostNumber_singleton]
    have hb := represent_hostNumber order' [b]
    rw [hostNumber_singleton] at hb
    exact congrArg (List.headD · 0) hb
  rcases d with _ | ⟨_ | _ | _ | _ | _, bytes⟩ | bytes | bytes | t
  · rfl
  · have hl : bytes.length = 1 := h
    exact congrArg (fun b : UInt8 => (uint32Write sendMsg async 1 tag).next
      (uint8Write sendMsg async (b.toNat : ℤ) tag)) (hone hl)
  · have hl : bytes.length = 1 := h
    exact congrArg (fun b : UInt8 => (uint32Write sendMsg async 2 tag).next
      (uint8Write sendMsg async (b.toNat : ℤ) tag)) (hone hl)
  · exact h.elim
  · exact congrArg (fun n : ℕ => (uint32Write sendMsg async 4 tag).next
      (uint64Write sendMsg async (n : ℤ) tag)) (hnum bytes)
  · exact congrArg (fun n : ℕ => (uint32Write sendMsg async 5 tag).next
      (floatWrite sendMsg async (n : ℤ) tag)) (hnum bytes)
  all_goals rfl

theorem primWrite_received {p : Prim} (h : PrimSendable p) (tag : UInt8) :
    primWrite sendMsg async order' (receivedPrim order order' p) tag =
      primWrite sendMsg async order p tag := by
  cases p with
  | string s =>
    by_cases hs : preludeStringIsEmpty s
    · have hnew : preludeStringIsEmpty preludeStringNew := rfl
      simp [receivedPrim, Prim.content, primWrite, preludeStringWrite, hs, hnew]
    · simp [receivedPrim, Prim.content, primWrite, hs]
  | time t => rfl
  | data d => exact idmefDataWrite_received order order' sendMsg async h tag

theorem scalarWrite_unset {type : FieldType} (h : type.optional) (val : ℤ) (tag : UInt8) :
    scalarWrite sendMsg async type false val tag = nothing := by
  unfold scalarWrite
  split <;> simp_all [FieldType.optional]

theorem scalarWrite_received (type : FieldType) (isSet : Bool) (val : ℤ) (tag : UInt8) :
    ∃ isSet' val', receivedScalar type isSet val = .scalar isSet' val' ∧
      scalarWrite sendMsg async type isSet' val' tag =
        scalarWrite sendMsg async type isSet val tag := by
  cases hopt : type.optional with
  | true =>
    refine ⟨isSet, if isSet then val else 0, if_pos hopt, ?_⟩
    cases isSet with
    | true => rw [if_pos rfl]
    | false => rw [scalarWrite_unset sendMsg async hopt, scalarWrite_unset sendMsg async hopt]
  | false =>
    refine ⟨false, val, if_neg (by simp [hopt]), ?_⟩
    cases type <;> first | rfl | cases hopt

mutual

/-- What was read of an object is written as the object was. -/
theorem idmefWrite_received (id : Option UInt8) : ∀ o : Obj, Sendable o →
    idmefWrite sendMsg async order' id (received order order' o) =
      idmefWrite sendMsg async order id o
  | .prim rc p, h => by
    rw [received, idmefWrite, idmefWrite]
    cases id with
    | none => rfl
    | some tag =>
      rw [Sendable] at h
      exact primWrite_received order order' sendMsg async h tag
  | .struct cls rc fs, h => by
    rw [Sendable, ← map_fst_wireFields] at h
    have hfs := writeFields_received cls.wireFields fs h
    rw [map_fst_wireFields] at hfs
    rw [received, idmefWrite, idmefWrite, hfs]

theorem writeFields_received : ∀ (ds : List WireField) (fs : List Field),
    FieldsSendable (ds.map Prod.fst) fs →
    writeFields sendMsg async order' ds (receivedFields order order' (ds.map Prod.fst) fs) =
      writeFields sendMsg async order ds fs
  | [], fs, _ => by
    rw [writeFields, writeFields]
    all_goals simp
  | d :: ds, [], _ => by
    rw [receivedFields, writeFields, writeFields]
    all_goals simp
  | d :: ds, f :: fs, h => by
    rw [List.map_cons, FieldsSendable] at h
    rw [List.map_cons, receivedFields, writeFields, writeFields, writeField_received d f h.1,
      writeFields_received ds fs h.2]

theorem writeField_received (d : WireField) : ∀ f : Field, FieldSendable d.1.type f →
    writeField sendMsg async order' d (receivedField order order' d.1.type f) =
      writeField sendMsg async order d f
  | .scalar isSet val, h => by
    rw [receivedField]
    cases htag : d.2 with
    | none =>
      obtain ⟨isSet', val', heq, -⟩ := scalarWrite_received sendMsg async d.1.type isSet val 0
      rw [heq, writeField, writeField, htag]
      rfl
    | some tag =>
      obtain ⟨isSet', val', heq, hw⟩ := scalarWrite_received sendMsg async d.1.type isSet val tag
      rw [heq, writeField, writeField, htag]
      exact hw
  | .ptr none, _ => by rw [receivedField, writeField, writeField]
  | .ptr (some o), h => by
    rw [FieldSendable] at h
    rw [receivedField, writeField, writeField, idmefWrite_received d.2 o h.1]
  | .list l, h => by
    rw [FieldSendable] at h
    rw [receivedField, writeField, writeField, writeList_received d.2 l h]
  | .union var none, _ => by rw [receivedField, writeField, writeField]
  | .union var (some o), h => by
    rw [FieldSendable] at h
    rw [receivedField, writeField, writeField, idmefWrite_received d.2 o h]

theorem writeList_received (id : Option UInt8) : ∀ l : List Obj, ListSendable l →
    writeList sendMsg async order' id (receivedList order order' l) =
      writeList sendMsg async order id l
  | [], _ => by rw [receivedList, writeList, writeList]
  | o :: os, h => by
    rw [ListSendable] at h
    rw [receivedList, writeList, writeList, idmefWrite_received id o h.1,
      writeList_received id os h.2.2]

end

theorem sendAll_received {os : List Obj} (hs : ∀ o ∈ os, Sendable o) (m : Msg) (l : Link) :
    sendAll async order' (os.map (received order order')) m l = sendAll async order os m l := by
  induction os generalizing m l with
  | nil => rfl
  | cons o os ih =>
    rw [List.forall_mem_cons] at hs
    have ho := idmefWrite_received order order' Link.sendMsg async none o hs.1
    simp only [List.map_cons, sendAll, sendIdmef, idmefMessageWrite, ho, ih hs.2]

end Relay

theorem map_data {os : List Obj} {ws : List WireMsg}
    (h : List.Forall₂ (fun o w => WireMsg.data w = messageBytes order o) os ws) :
    ws.map WireMsg.data = os.map (messageBytes order) := by
  induction h with
  | nil => rfl
  | cons hw _ ih => rw [List.map_cons, List.map_cons, hw, ih]

/-- A machine that reads messages and sends them on sends the messages that it got: the data of
each is the same, whatever buffer, link and clock it has. With the ones of the first machine, all
bytes are the same. -/
theorem idmef_relay (async : Bool) (os : List Obj) (l : Link)
    (ht : ∀ o ∈ os, HasType (.struct .message) o) (hs : ∀ o ∈ os, Sendable o)
    (hmax : ∀ o ∈ os, (messageBytes order o).length < maxMessageSize) (hl : l.out = []) :
    ∃ m' l', ∃ ws : List WireMsg, sendAll async order os preludeMsgDynamicNew l = some (m', l') ∧
      l'.out = ws.flatMap WireMsg.bytes ∧
      ∀ d : Stream, d.pending = l'.out → ∀ fuel,
        Delivery.blocks d.turns + d.pending.length < fuel → ∃ ms os',
          readAll fuel none d = some (ms, d.final) ∧
          List.Forall₂ (fun o' m => ∀ fuel, m.hdr.datalen.toNat < 5 * fuel → ∃ m',
            idmefMessageRead order' now fuel (idmefNew now .message) m =
              some (.ok (), m', o')) os' ms ∧
          (∀ async' m l, sendAll async' order' os' m l = sendAll async' order os m l) ∧
          ∀ async' k, ∃ m₂ k', ∃ ws' : List WireMsg,
            sendAll async' order' os' preludeMsgDynamicNew k = some (m₂, k') ∧
            k'.out = k.out ++ ws'.flatMap WireMsg.bytes ∧
            ws'.map WireMsg.data = ws.map WireMsg.data := by
  obtain ⟨m', l', hsend, hread⟩ := readAll_sent order order' now async ht hs hmax hl
  obtain ⟨m₁, l₁, ws, hws, hout, hdata⟩ :=
    sendAll_spec order async ht hmax Msg.filling_dynamicNew rfl l
  cases hsend.symm.trans hws
  rw [hl, List.nil_append] at hout
  refine ⟨m', l', ws, hsend, hout, fun d hd fuel hf => ?_⟩
  obtain ⟨ms, hms, hall⟩ := hread d hd fuel hf
  have hsame (async' : Bool) := sendAll_received order order' async' hs
  refine ⟨ms, os.map (received order order'), hms, ?_, fun async' m l => hsame async' m l,
    fun async' k => ?_⟩
  · rwa [List.forall₂_map_left_iff]
  · obtain ⟨m₂, k', ws', hws', hout', hdata'⟩ :=
      sendAll_spec order async' ht hmax Msg.filling_dynamicNew rfl k
    exact ⟨m₂, k', ws', (hsame async' _ _).trans hws', hout',
      (map_data order hdata').trans (map_data order hdata).symm⟩

/-- The heartbeat goes through a machine of the other byte order, whose buffer is synchronous and
whose writes are cut elsewhere. -/
theorem idmef_relay_heartbeat :
    let l : Link := ⟨[], [3, 0, 20], fun _ => ⟨0, 0⟩, 0⟩
    let k : Link := ⟨[], [0, 7], fun _ => ⟨5, 6⟩, 0⟩
    ∃ m' l', ∃ ws : List WireMsg,
      sendAll true .little [heartbeatMessage] preludeMsgDynamicNew l = some (m', l') ∧
      l'.out = ws.flatMap WireMsg.bytes ∧
      ∀ d : Stream, d.pending = l'.out → ∃ fuel ms os', readAll fuel none d = some (ms, d.final) ∧
        ∃ m₂ k', ∃ ws' : List WireMsg,
          sendAll false .big os' preludeMsgDynamicNew k = some (m₂, k') ∧
          k'.out = ws'.flatMap WireMsg.bytes ∧ ws'.map WireMsg.data = ws.map WireMsg.data := by
  intro l k
  obtain ⟨m', l', ws, hsend, hout, hread⟩ := idmef_relay .little .big ⟨0, 0, 0⟩ true
    [heartbeatMessage] l (by simpa using heartbeatMessage_type)
    (by simpa using heartbeatMessage_sendable) (by decide +kernel) rfl
  refine ⟨m', l', ws, hsend, hout, fun d hd => ?_⟩
  obtain ⟨ms, os', hms, -, -, hrelay⟩ := hread d hd _ (Nat.lt_succ_self _)
  obtain ⟨m₂, k', ws', hsend', hout', hdata⟩ := hrelay false k
  exact ⟨_, ms, os', hms, m₂, k', ws', hsend', hout', hdata⟩

end IdmefMessage

end LibPrelude
