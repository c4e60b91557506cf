import LibPrelude.Message.Emit

/-! # Sending a message completely

A message buffer is flushed through a callback that writes to one byte stream
until the message is sent. The stream may accept any part of what it is offered,
or nothing; what it got in the end is one frame.
-/

namespace LibPrelude

open Bytes

/-- The near end of a byte stream: the bytes it accepted, how much the next writes accept
(none when they would block), and a clock. -/
structure Link where
  out : List UInt8
  accepts : List ℕ
  clock : ℕ → Timeval
  ticks : ℕ

namespace Link

def gettimeofday (l : Link) : Timeval × Link := (l.clock l.ticks, { l with ticks := l.ticks + 1 })

def write (buf : List UInt8) (l : Link) : Except ErrorCode ℕ × Link :=
  match l.accepts with
  | [] => (.ok buf.length, { l with out := l.out ++ buf })
  | 0 :: accepts => (.error .eagain, { l with accepts })
  | (n + 1) :: accepts =>
    (.ok (buf.take (n + 1)).length, { l with out := l.out ++ buf.take (n + 1), accepts })

def sendAll : ℕ → Msg → Link → Option (Ret × Msg × Link)
  | 0, _, _ => none
  | fuel + 1, m, l => do
    match ← preludeMsgWrite gettimeofday write m l with
    | (.error .eagain, m, l) => sendAll fuel m l
    | (ret, m, l) => some (ret, m, l)

/-- The flush callback of a message buffer that writes every message completely. -/
def sendMsg (m : Msg) (l : Link) : Option (Ret × Msg × Link) := sendAll (l.accepts.length + 1) m l

theorem write_spec (buf : List UInt8) (l : Link) :
    ∃ l', (write buf l = (.error .eagain, l') ∧ l'.out = l.out ∧
        l'.accepts.length < l.accepts.length) ∨
      (∃ j, write buf l = (.ok j, l') ∧ j ≤ buf.length ∧ l'.out = l.out ++ buf.take j ∧
        (j = buf.length ∨ l'.accepts.length < l.accepts.length)) := by
  rcases h : l.accepts with - | ⟨_ | n, as⟩
  · refine ⟨_, .inr ⟨_, by rw [write, h], le_rfl, ?_, .inl rfl⟩⟩
    simp
  · exact ⟨{ l with accepts := as }, .inl ⟨by rw [write, h], rfl, by simp⟩⟩
  · refine ⟨_, .inr ⟨_, by rw [write, h], List.length_take_le' .., ?_, .inr ?_⟩⟩
    · rw [List.length_take, ← List.take_eq_take_min]
    · simp

theorem write_le (buf : List UInt8) (l : Link) (j : ℕ) (l' : Link)
    (h : write buf l = (.ok j, l')) : j ≤ buf.length := by
  obtain ⟨l', ⟨hw, -⟩ | ⟨j', hw, hj, -⟩⟩ := write_spec buf l
  · rw [h] at hw; cases hw
  · rw [h] at hw; cases hw; exact hj

theorem sendAll_spec {fuel : ℕ} {m : Msg} {body : List UInt8}
    (out : List UInt8) {l : Link} {h : Hdr}
    (hm : m.Holds body) (hk : m.fdWriteIndex.toNat < 16 + body.length)
    (hd : h.Describes m.hdr body.length)
    (hout : l.out = out ++ (h.bytes ++ body).take m.fdWriteIndex.toNat)
    (hf : l.accepts.length < fuel) :
    ∃ m' l', ∃ h' : Hdr, sendAll fuel m l = some (.ok (), m', l') ∧
      h'.Describes m.hdr body.length ∧ l'.out = out ++ (h'.bytes ++ body) ∧ m.Stamped m' ∧
      m'.fdWriteIndex = 0 := by
  induction fuel generalizing m l h with
  | zero => omega
  | succ fuel ih =>
    obtain ⟨m₁, l₁, h₁, hd₁, -, hst, hm₁, hl₁, hw⟩ :=
      hm.write_spec gettimeofday write hk.le l fun buf l j l' => write_le buf l j l'
    have hl : l₁.out = l.out ∧ l₁.accepts = l.accepts := by
      rcases hl₁ with rfl | rfl <;> exact ⟨rfl, rfl⟩
    have hbound := hm.bounded
    have hofNat {j : ℕ} (hj : j ≤ 16 + body.length) : (UInt32.ofNat j).toNat = j := by
      rw [UInt32.toNat_ofNat', Nat.mod_eq_of_lt (by omega)]
    simp only [sendAll, hw]
    obtain ⟨l₂, ⟨hio, ho, ha⟩ | ⟨j, hio, hj, ho, ha⟩⟩ :=
      write_spec ((h₁.bytes ++ body).drop m.fdWriteIndex.toNat) l₁
    · obtain ⟨m', l', h', hsend, hd', hout', hst', hfd⟩ :=
        ih (m := { m₁ with fdWriteIndex := UInt32.ofNat m.fdWriteIndex.toNat }) (l := l₂)
          (hm₁.withIndex _) (by rw [hofNat hk.le]; exact hk) ((hst.withIndex _).describes.mpr hd)
          (by rw [hofNat hk.le, ho, hl.1, hout]) (by rw [hl.2] at ha; omega)
      refine ⟨m', l', h', ?_, (hst.withIndex _).describes.mp hd', hout',
        (hst.withIndex _).trans hst', hfd⟩
      simpa [hio, Msg.afterWrite] using hsend
    · obtain ⟨h₂, hd₂, hsplice⟩ := hd.splice hd₁ body m.fdWriteIndex.toNat
      have hlen : ((h.bytes ++ body).take m.fdWriteIndex.toNat).length = m.fdWriteIndex.toNat := by
        simp; omega
      rw [List.length_drop, List.length_append, Hdr.length_bytes] at hj ha
      have ho₂ : l₂.out = out ++ (h₂.bytes ++ body).take (m.fdWriteIndex.toNat + j) := by
        rw [ho, hl.1, hout, ← hsplice, List.append_assoc, take_append_of_length hlen]
      by_cases hfull : m.fdWriteIndex.toNat + j = 16 + body.length
      · refine ⟨{ m₁ with fdWriteIndex := 0 }, l₂, h₂, ?_, hd₂, ?_, hst.withIndex _, rfl⟩
        · simp [hio, Msg.afterWrite, hfull]
        · rw [ho₂, List.take_of_length_le (by simp [hfull])]
      · obtain ⟨m', l', h', hsend, hd', hout', hst', hfd⟩ :=
          ih (m := { m₁ with fdWriteIndex := UInt32.ofNat (m.fdWriteIndex.toNat + j) }) (l := l₂)
            (hm₁.withIndex _) (by rw [hofNat (by omega)]; omega)
            ((hst.withIndex _).describes.mpr hd₂) (by rw [hofNat (by omega), ho₂])
            (by rw [hl.2] at ha; omega)
        refine ⟨m', l', h', ?_, (hst.withIndex _).describes.mp hd', hout',
          (hst.withIndex _).trans hst', hfd⟩
        simpa [hio, Msg.afterWrite, hfull] using hsend

theorem sendMsg_spec {m : Msg} {body : List UInt8} (hm : m.Holds body)
    (hi : m.fdWriteIndex = 0) (l : Link) :
    ∃ m' l', ∃ f : Frame, sendMsg m l = some (.ok (), m', l') ∧ f.hdr.Describes m.hdr body.length ∧
      f.body = body ∧ l'.out = l.out ++ f.bytes ∧ m.Stamped m' ∧ m'.fdWriteIndex = 0 := by
  have hbound := hm.bounded
  have hlen : (UInt32.ofNat body.length).toNat = body.length := by
    rw [UInt32.toNat_ofNat', Nat.mod_eq_of_lt (by omega)]
  obtain ⟨m', l', h, hsend, hd, hout, hst, hfd⟩ :=
    sendAll_spec l.out (h := ⟨preludeMsgVersion, m.hdr.tag, m.hdr.priority,
        m.hdr.isFragment, UInt32.ofNat body.length, 0, 0⟩) hm
      (by rw [hi, UInt32.toNat_zero]; omega) ⟨rfl, rfl, rfl, rfl, hlen⟩
      (by rw [hi, UInt32.toNat_zero, List.take_zero, List.append_nil]) (Nat.lt_succ_self _)
  exact ⟨m', l', ⟨h, body, hd.datalen.symm⟩, hsend, hd, rfl, hout, hst, hfd⟩

theorem sendMsg_empty {m : Msg} (hi : m.fdWriteIndex = 0) (hw : m.writeIndex = preludeMsgHdrSize)
    (l : Link) : sendMsg m l = some (.ok (), m, l) := by
  cases m
  simp_all [sendMsg, sendAll, preludeMsgWrite, preludeMsgWriteR]

end Link

end LibPrelude
