import LibPrelude.Failover.Runs

/-! # The failover store as a queue

While every message that is saved is one frame, the store is a queue: saving puts a
message at the end and getting takes the first one out, as an object that can be sent
again. The time in the header of a message is that of the attempt which writes it, so
what is queued is what a message says: its tag, its priority and its data.
-/

namespace LibPrelude

open Bytes Resume

structure Content where
  tag : UInt8
  priority : UInt8
  body : List UInt8
  deriving DecidableEq

namespace Content

def size (k : Content) : ℕ := 16 + k.body.length

end Content

def Frame.content (fr : Frame) : Content := ⟨fr.hdr.tag, fr.hdr.priority, fr.body⟩

structure Frame.Whole (fr : Frame) : Prop where
  version : fr.hdr.version = preludeMsgVersion
  isFragment : fr.hdr.isFragment = 0
  nonempty : fr.body ≠ []
  bounded : fr.body.length < maxMessageSize

/-- A message object that is to be written as one frame, from its first byte on. -/
structure Msg.Carries (m : Msg) (k : Content) : Prop where
  holds : m.Holds k.body
  tag : m.hdr.tag = k.tag
  priority : m.hdr.priority = k.priority
  isFragment : m.hdr.isFragment = 0
  start : m.fdWriteIndex = 0
  bounded : k.body.length < maxMessageSize

theorem Msg.Carries.size_lt {m : Msg} {k : Content} (h : m.Carries k) : k.size < 2 ^ 28 := by
  have hbound := h.bounded
  unfold maxMessageSize at hbound
  unfold Content.size
  omega

theorem Msg.Carries.stamped {m m' : Msg} {k : Content} (h : m.Carries k) (hst : m.Stamped m')
    (hm : m'.Holds k.body) (hstart : m'.fdWriteIndex = 0) : m'.Carries k :=
  ⟨hm, hst.tag.trans h.tag, hst.priority.trans h.priority, hst.isFragment.trans h.isFragment,
    hstart, h.bounded⟩

theorem Msg.Carries.frame {m : Msg} {k : Content} (h : m.Carries k) {fr : Frame}
    (hd : fr.hdr.Describes m.hdr k.body.length) (hb : fr.body = k.body) :
    fr.Whole ∧ fr.content = k := by
  refine ⟨⟨hd.version, hd.isFragment.trans h.isFragment, ?_, ?_⟩, ?_⟩
  · rw [hb]
    exact h.holds.nonempty
  · rw [hb]
    exact h.bounded
  · rw [Frame.content, hd.tag, hd.priority, h.tag, h.priority, hb]

theorem WireMsg.carries_msg (w : WireMsg) (hw : w.fragments = []) :
    w.msg.Carries w.last.content := by
  have hdata : w.data = w.last.body := by simp [WireMsg.data, WireMsg.frames, hw]
  have hbound : w.last.body.length < maxMessageSize := by
    rw [← hdata]
    exact w.bounded
  refine ⟨⟨w.nonempty _ (by simp), ?_, _, w.payload_msg, ?_, ?_, .inl ⟨rfl, ?_⟩⟩, ?_, ?_, rfl, ?_,
    hbound⟩
  · unfold maxMessageSize at hbound
    change w.last.body.length + 32 < 2 ^ 32
    omega
  · rw [List.length_append, List.length_replicate, hdata]
    rfl
  · rw [List.drop_left' List.length_replicate, hdata]
    exact List.take_length
  · rw [w.toNat_writeIndex_msg, hdata]
    rfl
  · have := w.head_msg.1
    rwa [WireMsg.head, hw] at this
  · simp [WireMsg.msg, hw, Msg.addFragments, Msg.addFrame, Msg.finish, Msg.fresh, Hdr.merge,
      Frame.content]
  · simp [WireMsg.msg, hw, Msg.addFragments, Msg.addFrame, Msg.finish, Msg.fresh]

namespace Failover

def unread (f : Failover) : ℕ := f.data.bytes.length - f.rpos

def Room (f : Failover) (n : ℕ) : Prop := f.data.bytes.length + n < 2 ^ 63

/-- A store from which messages are still to be read that say `ks`, in order. -/
def Queues (f : Failover) (ks : List Content) : Prop :=
  ∃ s, ∃ fs : List Frame, Stored f s ∧ s.pending = fs.map ([·]) ∧ s.tail = [] ∧
    fs.map Frame.content = ks ∧ f.count = UInt64.ofNat ks.length

/-- The store after some bytes of a message were saved, as a fragment or as the end of it. -/
def Appended (isFragment : UInt8) (bs : List UInt8) (f f' : Failover) : Prop :=
  ∃ data : DataFile, data.bytes = f.data.bytes ++ bs ∧
    f' = if isFragment ≠ 0 then { f with data }
      else journalWrite { f with data, count := f.count + 1 }

end Failover

theorem preludeFailoverSaveMsg_rest {m : Msg} {body : List UInt8} {f : Failover} (tv : Timeval)
    (hm : m.Holds body) (hk : m.fdWriteIndex.toNat ≤ 16 + body.length)
    (hroom : f.Room (16 + body.length)) :
    ∃ m' f', ∃ h : Hdr, preludeFailoverSaveMsg tv m f = some (.ok (), m', f') ∧
      m.Stamped m' ∧ m'.Holds body ∧ m'.fdWriteIndex = 0 ∧ h.Describes m.hdr body.length ∧
      f.Appended m.hdr.isFragment ((h.bytes ++ body).drop m.fdWriteIndex.toNat) f' := by
  have happend (buf : List UInt8) (s : Failover) (j : ℕ) (s' : Failover)
      (h : Failover.write buf s = (.ok j, s')) : j ≤ buf.length := by
    unfold Failover.write at h
    cases hd : s.data.append buf with
    | none => rw [hd] at h; cases h
    | some data => rw [hd] at h; cases h; exact le_rfl
  obtain ⟨m₁, f₁, h, hd, -, hst, hm₁, hf₁, hwrite⟩ :=
    hm.write_spec (fun f : Failover => (tv, f)) Failover.write hk f happend
  obtain rfl : f₁ = f := by rcases hf₁ with h | h <;> exact h
  have hlen : ((h.bytes ++ body).drop m.fdWriteIndex.toNat).length =
      16 + body.length - m.fdWriteIndex.toNat := by simp
  have hfits : (f₁.data.bytes ++ (h.bytes ++ body).drop m.fdWriteIndex.toNat).length < 2 ^ 63 := by
    unfold Failover.Room at hroom
    rw [List.length_append, hlen]
    omega
  refine ⟨{ m₁ with fdWriteIndex := 0 }, _, h, ?_, hst.withIndex 0, hm₁.withIndex 0, rfl, hd,
    ⟨_, hfits⟩, rfl, rfl⟩
  have hflag : m₁.hdr.isFragment = m.hdr.isFragment := hst.isFragment
  have hwhole : m.fdWriteIndex.toNat + (16 + body.length - m.fdWriteIndex.toNat) =
      16 + body.length := by omega
  simp only [preludeFailoverSaveMsg, hwrite, Failover.write, DataFile.append, dif_pos hfits,
    Msg.afterWrite, hlen, hwhole, if_true, Option.map_some, preludeMsgIsFragment, hflag,
    decide_eq_true_eq]
  split <;> rfl

namespace Failover

variable {f f' : Failover} {k : Content} {ks : List Content} {n : ℕ}

theorem Room.mono (h : f.Room n) {n' : ℕ} (hn : n' ≤ n) : f.Room n' := by
  unfold Room at *
  omega

theorem Appended.room {isFragment : UInt8} {bs : List UInt8} (h : f.Appended isFragment bs f')
    (hf : f.Room (bs.length + n)) : f'.Room n := by
  obtain ⟨data, hdata, rfl⟩ := h
  have hlen : data.bytes.length = f.data.bytes.length + bs.length := by
    rw [hdata, List.length_append]
  unfold Room at *
  split_ifs
  · change data.bytes.length + n < _
    omega
  · change data.bytes.length + n < _
    omega

namespace Queues

theorem appended (h : f.Queues ks) {fr : Frame} (hw : fr.Whole) (ha : f.Appended 0 fr.bytes f') :
    f'.Queues (ks ++ [fr.content]) := by
  obtain ⟨s, fs, hs, hp, ht, rfl, hcount⟩ := h
  obtain ⟨data, hdata, rfl⟩ := ha
  have hclean : Clean s (.save fr) := by
    rw [Clean, ht]
    simpa [bodies] using hw.bounded
  have hbound := hw.bounded
  unfold maxMessageSize at hbound
  have hemits := Msg.emits_ofFrame fr hw.version hw.nonempty (by omega)
  have hlast := hs.saveLast hemits hclean hdata hw.isFragment
  rw [if_neg (not_not.mpr rfl)]
  refine ⟨_, fs ++ [fr], hlast, ?_, rfl, ?_, ?_⟩
  · simp [hp, ht]
  · simp
  · change f.count + 1 = _
    rw [hcount, List.length_append, UInt64.ofNat_add]
    rfl

theorem unread_eq (h : f.Queues ks) : f.unread = (ks.map Content.size).sum := by
  obtain ⟨s, fs, hs, hp, ht, rfl, -⟩ := h
  have hunread := congrArg List.length hs.unread
  rw [List.length_drop, hp, ht, wire_nil, List.append_nil] at hunread
  have hflat : (fs.map ([·])).flatten = fs := by
    rw [← List.flatMap_def, List.flatMap_singleton']
  rw [Failover.unread, hunread, hflat, wire, List.length_flatMap, List.map_map]
  simp [Function.comp_def, Content.size, Frame.content]

theorem length_le (h : f.Queues ks) : ks.length ≤ f.data.bytes.length := by
  have hsum : ks.length ≤ (ks.map Content.size).sum := by
    have := List.length_le_sum_of_one_le (ks.map Content.size) fun n hn => by
      obtain ⟨k, -, rfl⟩ := List.mem_map.mp hn
      unfold Content.size
      omega
    rwa [List.length_map] at this
  have hunread := h.unread_eq
  unfold unread at hunread
  omega

theorem count_eq (h : f.Queues ks) : f.count.toNat = ks.length := by
  have hlen := h.length_le
  have hlt := f.data.length_lt
  obtain ⟨-, -, -, -, -, -, hcount⟩ := h
  rw [hcount, UInt64.toNat_ofNat', Nat.mod_eq_of_lt (by omega)]

theorem size_lt (h : f.Queues ks) (hk : k ∈ ks) : k.size < 2 ^ 28 := by
  obtain ⟨s, fs, hs, hp, -, rfl, -⟩ := h
  obtain ⟨fr, hfr, rfl⟩ := List.mem_map.mp hk
  obtain ⟨w, hw⟩ := hs.whole [fr] (by rw [hp]; exact List.mem_map_of_mem hfr)
  have hbound : (bodies w.frames).length < maxMessageSize := w.bounded
  rw [hw] at hbound
  unfold maxMessageSize at hbound
  simp only [bodies, List.flatMap_cons, List.flatMap_nil, List.append_nil] at hbound
  change 16 + fr.body.length < 2 ^ 28
  omega

theorem room (h : f.Queues ks) (hroom : f.Room (n + 2 ^ 28)) (hk : k ∈ ks) :
    f.Room (k.size + n) := by
  have := h.size_lt hk
  exact hroom.mono (by omega)

/-- Getting a message takes the first one out. -/
theorem next (h : f.Queues (k :: ks)) : ∃ m f',
    preludeFailoverGetSavedMsg f = some (.ok k.size, some m, f') ∧ m.Carries k ∧ f'.Queues ks ∧
      f'.data = f.data := by
  have hcount := h.count_eq
  obtain ⟨s, fs, hs, hp, ht, hks, hn⟩ := h
  obtain ⟨fr, fs, rfl⟩ := List.exists_cons_of_ne_nil (l := fs) (by rintro rfl; cases hks)
  rw [List.map_cons, List.cons.injEq] at hks
  obtain ⟨rfl, rfl⟩ := hks
  obtain ⟨w, hw, hget⟩ := hs.next hp
  obtain ⟨hfrag, hlast⟩ := List.append_inj' (show w.fragments ++ [w.last] = [] ++ [fr] from hw) rfl
  obtain rfl := List.singleton_inj.mp hlast
  have hdata : w.data = w.last.body := by simp [WireMsg.data, WireMsg.frames, hfrag]
  rw [hdata] at hget
  have hpos : f.count > 0 := by
    rw [gt_iff_lt, UInt64.lt_iff_toNat_lt, hcount]
    simp
  refine ⟨w.msg, _, hget, w.carries_msg hfrag, ⟨_, fs, hs.commit hp hw, rfl, ht, rfl, ?_⟩, rfl⟩
  change (if f.count > 0 then f.count - 1 else f.count) = _
  rw [if_pos hpos, hn, List.length_cons, UInt64.ofNat_add]
  exact UInt64.add_sub_cancel _ _

theorem none_left (h : f.Queues []) : ∃ f', preludeFailoverGetSavedMsg f = some (.ok 0, none, f') ∧
    f'.Queues [] ∧ f'.data.bytes = [] := by
  obtain ⟨s, fs, hs, hp, ht, hks, -⟩ := h
  obtain rfl := List.map_eq_nil_iff.mp hks
  have hunread := hs.unread
  rw [hp, ht] at hunread
  have hget := preludeFailoverGetSavedMsg_of_starved f (m := .fresh) (by rw [hunread]; rfl)
  rw [hs.transaction] at hget
  exact ⟨_, hget, ⟨.empty, [], .reset, rfl, rfl, rfl, rfl⟩, rfl⟩

theorem empty : Queues ⟨.empty, 0, [], 0, 0, 0, false⟩ [] :=
  ⟨.empty, [], .start, rfl, rfl, rfl, rfl⟩

end Queues

end Failover

end LibPrelude
