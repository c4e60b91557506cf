import LibPrelude.Failover.Recovery
import LibPrelude.Message.Emit

/-! # Runs of the failover store

The store is to be a queue of messages: saving appends a frame, getting removes the
first whole message. The read index counts one header a message, the data file has
one a frame, so the two agree as long as only messages of one frame are removed.
-/

namespace LibPrelude

open Bytes Resume Slots

/-- The frames saved since the files were last empty, a list of them for each message:
those returned, those not yet returned, and those of a message still without its end. -/
structure Saved where
  returned : List (List Frame)
  pending : List (List Frame)
  tail : List Frame

namespace Saved

def empty : Saved := ⟨[], [], []⟩

def save (s : Saved) (fr : Frame) : Saved :=
  if fr.hdr.isFragment ≠ 0 then { s with tail := s.tail ++ [fr] }
  else { s with pending := s.pending ++ [s.tail ++ [fr]], tail := [] }

/-- A message is returned, or nothing is and the files are empty again. -/
def get (s : Saved) : Option Msg → Saved
  | none => .empty
  | some _ => { s with returned := s.returned ++ s.pending.take 1, pending := s.pending.drop 1 }

end Saved

inductive Op where
  | save (fr : Frame)
  | get

/-- The states that a store opened on empty files reaches through allowed operations. -/
inductive Reaches (allowed : Saved → Op → Prop) : Failover → Saved → Prop
  | start : Reaches allowed ⟨.empty, 0, [], 0, 0, 0, false⟩ .empty
  | save {f f' : Failover} {s : Saved} {m m' : Msg} {tv : Timeval} {fr : Frame} {ret : Ret} :
      Reaches allowed f s → m.Emits tv fr → allowed s (.save fr) →
      preludeFailoverSaveMsg tv m f = some (ret, m', f') →
      Reaches allowed f' (if ret = .ok () then s.save fr else s)
  | saveEmpty {f f' : Failover} {s : Saved} {m m' : Msg} {tv : Timeval} {ret : Ret} :
      Reaches allowed f s → m.writeIndex = preludeMsgHdrSize →
      preludeFailoverSaveMsg tv m f = some (ret, m', f') → Reaches allowed f' s
  | get {f f' : Failover} {s : Saved} {ret : Except ErrorCode ℕ} {msg : Option Msg} :
      Reaches allowed f s → allowed s .get →
      preludeFailoverGetSavedMsg f = some (ret, msg, f') → Reaches allowed f' (s.get msg)

/-- No message grows to the size that the reader refuses, and a get finds nothing or a whole
message of one frame. -/
def Clean (s : Saved) : Op → Prop
  | .save fr => (bodies (s.tail ++ [fr])).length < maxMessageSize
  | .get => (s.pending = [] ∧ s.tail = []) ∨ ∃ fr rest, s.pending = [fr] :: rest

def lastEntry (journal : List UInt8) : Option JournalEntry :=
  if JournalEntry.size ≤ journal.length then
    some (entryAt journal (journal.length / JournalEntry.size - 1))
  else none

/-- The read index is the offset of the first message not yet returned. -/
structure Consistent (f : Failover) (s : Saved) : Prop where
  data : f.data.bytes =
    wire s.returned.flatten ++ (wire s.pending.flatten ++ wire s.tail)
  rindex : f.rindex.toNat = (wire s.returned.flatten).length
  entry : ∀ e, lastEntry f.journal = some e → e.rindex = f.rindex

def savedMsgs : ℕ → Failover → Option (List Msg)
  | 0, _ => none
  | fuel + 1, f => (preludeFailoverGetSavedMsg f).bind fun
    | (.ok _, some m, f) => (savedMsgs fuel f).map (m :: ·)
    | _ => some []

/-- Frames that begin a message and wait for the rest of it. -/
structure Unfinished (fs : List Frame) : Prop where
  flagged : ∀ f ∈ fs, f.hdr.isFragment ≠ 0
  version : ∀ f ∈ fs, f.hdr.version = preludeMsgVersion
  nonempty : ∀ f ∈ fs, f.body ≠ []
  bounded : (bodies fs).length < maxMessageSize

/-- The journal ends with an entry for the current count and read index. -/
def Logged (f : Failover) : Prop :=
  f.jpos = f.journal.length ∧ ∃ pre, JournalEntry.size ∣ pre.length ∧
    f.journal = pre ++ (journalEntry f.count f.rindex).bytes

/-- What the store keeps under clean operations. -/
structure Stored (f : Failover) (s : Saved) : Prop where
  data : f.data.bytes = wire s.returned.flatten ++ (wire s.pending.flatten ++ wire s.tail)
  rindex : f.rindex.toNat = (wire s.returned.flatten).length
  rpos : f.rpos = (wire s.returned.flatten).length
  transaction : f.transactionEnabled = false
  journal : (f.jpos = 0 ∧ f.journal = [] ∧ s.returned = [] ∧ s.pending = []) ∨ Logged f
  whole : ∀ g ∈ s.pending, ∃ w : WireMsg, w.frames = g
  unfinished : Unfinished s.tail

section Spec

variable {m : Msg} {tv : Timeval} {fr : Frame} (f : Failover)

/-- Saving appends one frame, or does nothing when the file cannot grow. -/
theorem preludeFailoverSaveMsg_spec (hm : m.Emits tv fr) :
    (∃ m', f.data.append fr.bytes = none ∧
      preludeFailoverSaveMsg tv m f = some (.error .efbig, m', f)) ∨
    ∃ data m', f.data.append fr.bytes = some data ∧ preludeFailoverSaveMsg tv m f =
      some (.ok (), m', if fr.hdr.isFragment ≠ 0 then { f with data }
        else journalWrite { f with data, count := f.count + 1 }) := by
  have hw (buf : List UInt8) (s : Failover) (j : ℕ) (s' : Failover)
      (h : Failover.write buf s = (.ok j, s')) : j ≤ buf.length := by
    unfold Failover.write at h
    cases hd : s.data.append buf with
    | none => rw [hd] at h; cases h
    | some data => rw [hd] at h; cases h; exact le_rfl
  obtain ⟨m₁, f₁, h, hd, hat, hst, -, hf₁, hwrite⟩ := hm.holds.write_spec
    (fun f : Failover => (tv, f)) Failover.write (by rw [hm.start]; exact Nat.zero_le _) f hw
  obtain rfl : f₁ = f := by rcases hf₁ with h | h <;> exact h
  obtain rfl := hm.hdr_eq hd hat
  have hz : m.fdWriteIndex.toNat = 0 := by rw [hm.start]; rfl
  rw [hz, List.drop_zero] at hwrite
  change _ = some (Msg.afterWrite m₁ 0 _ (Failover.write fr.bytes f₁)) at hwrite
  cases ha : f₁.data.append fr.bytes with
  | none =>
    refine .inl ⟨{ m₁ with fdWriteIndex := UInt32.ofNat 0 }, rfl, ?_⟩
    simp only [preludeFailoverSaveMsg, hwrite, Failover.write, ha, Msg.afterWrite]
    rfl
  | some data =>
    refine .inr ⟨data, { m₁ with fdWriteIndex := 0 }, rfl, ?_⟩
    have hflag : m₁.hdr.isFragment = fr.hdr.isFragment :=
      hst.isFragment.trans hm.describes.isFragment.symm
    simp only [preludeFailoverSaveMsg, hwrite, Failover.write, ha, Msg.afterWrite,
      Frame.length_bytes, Nat.zero_add, if_true, Option.map_some, preludeMsgIsFragment, hflag,
      decide_eq_true_eq]
    split <;> rfl

theorem preludeFailoverSaveMsg_empty (hw : m.writeIndex = preludeMsgHdrSize) :
    preludeFailoverSaveMsg tv m f = some (.ok (), m, if m.hdr.isFragment ≠ 0 then f
      else journalWrite { f with count := f.count + 1 }) := by
  have hz : m.writeIndex - preludeMsgHdrSize = 0 := by rw [hw, UInt32.sub_self]
  simp only [preludeFailoverSaveMsg, preludeMsgWrite, preludeMsgWriteR, if_pos hz,
    Option.bind_eq_bind, Option.bind_some, Option.map_some, preludeMsgIsFragment,
    decide_eq_true_eq]
  split <;> rfl

theorem length_bytes_of_append {file data : DataFile} {bs : List UInt8}
    (h : file.append bs = some data) : data.bytes = file.bytes ++ bs := by
  unfold DataFile.append at h
  split at h
  · cases h
    rfl
  · cases h

/-- Getting takes the first whole message off what is left to read. -/
theorem preludeFailoverGetSavedMsg_of_complete {w : WireMsg} {rest : List UInt8}
    (hp : f.data.bytes.drop f.rpos = w.bytes ++ rest) :
    let f' := { f with rpos := f.rpos + w.bytes.length }
    preludeFailoverGetSavedMsg f = some (.ok (16 + w.data.length), some w.msg,
      if f.transactionEnabled then f' else preludeFailoverCommit f' w.msg) := by
  have hfeed : feed Msg.absorb .fresh f.rfd.pending = .complete w.msg rest := by
    rw [Failover.rfd, hp]
    exact w.feed_bytes rest
  obtain ⟨d', hread, hrest⟩ := readMsg_of_complete (d := f.rfd) rfl hfeed
  have hmove : f.rfd.pending.length - d'.pending.length = w.bytes.length := by
    rw [hrest, Failover.rfd, hp, List.length_append, Nat.add_sub_cancel]
  simp only [preludeFailoverGetSavedMsg, hread, Option.bind_some, hmove, preludeMsgGetLen,
    w.toNat_writeIndex_msg]

/-- Getting when no whole message is left empties the files. -/
theorem preludeFailoverGetSavedMsg_of_starved {m : Msg}
    (hp : feed Msg.absorb .fresh (f.data.bytes.drop f.rpos) = .starved m) :
    preludeFailoverGetSavedMsg f =
      some (.ok 0, none, { Failover.reset with transactionEnabled := f.transactionEnabled }) := by
  obtain ⟨d', hread⟩ := readMsg_of_starved (d := f.rfd) rfl hp
  simp only [preludeFailoverGetSavedMsg, hread, Option.bind_some, truncateFailover_eq]
  rfl

end Spec

theorem Unfinished.starved {fs : List Frame} (h : Unfinished fs) :
    ∃ m, feed Msg.absorb .fresh (wire fs) = .starved m := by
  obtain ⟨hfeed, -, -⟩ := Msg.feed_fragments Msg.between_fresh h.flagged h.version h.nonempty
    (show 0 + _ < maxMessageSize by rw [Nat.zero_add]; exact h.bounded) []
  rw [List.append_nil] at hfeed
  exact ⟨_, hfeed⟩

theorem savedMsgs_eq {f : Failover} {ws : List WireMsg} {fs : List Frame} (h : Unfinished fs)
    (hp : f.data.bytes.drop f.rpos = ws.flatMap WireMsg.bytes ++ wire fs) {fuel : ℕ}
    (hf : ws.length < fuel) : savedMsgs fuel f = some (ws.map WireMsg.msg) := by
  induction ws generalizing f fuel with
  | nil =>
    obtain ⟨fuel, rfl⟩ : ∃ k, fuel = k + 1 := ⟨fuel - 1, by omega⟩
    obtain ⟨m, hm⟩ := h.starved
    rw [savedMsgs, preludeFailoverGetSavedMsg_of_starved f (by rw [hp]; exact hm)]
    rfl
  | cons w ws ih =>
    obtain ⟨fuel, rfl⟩ : ∃ k, fuel = k + 1 := ⟨fuel - 1, by omega⟩
    rw [List.flatMap_cons, List.append_assoc] at hp
    have hget := preludeFailoverGetSavedMsg_of_complete f hp
    have hrest (f' : Failover) (hd : f'.data = f.data) (hr : f'.rpos = f.rpos + w.bytes.length) :
        savedMsgs fuel f' = some (ws.map WireMsg.msg) := by
      refine ih ?_ (Nat.lt_of_succ_lt_succ hf)
      rw [hd, hr, ← List.drop_drop, hp, List.drop_left]
    rw [savedMsgs, hget, Option.bind_some]
    split_ifs
    · exact congrArg (Option.map (w.msg :: ·))
        (hrest { f with rpos := f.rpos + w.bytes.length } rfl rfl)
    · exact congrArg (Option.map (w.msg :: ·))
        (hrest (preludeFailoverCommit { f with rpos := f.rpos + w.bytes.length } w.msg) rfl rfl)

theorem Unfinished.nil : Unfinished [] := ⟨nofun, nofun, nofun, by decide⟩

theorem Logged.aligned {f : Failover} (h : Logged f) :
    f.jpos = f.journal.length ∧ JournalEntry.size ∣ f.journal.length := by
  obtain ⟨hj, pre, hpre, hjournal⟩ := h
  refine ⟨hj, ?_⟩
  rw [hjournal, List.length_append, length_bytes_journalEntry]
  exact Nat.dvd_add hpre (Nat.dvd_refl _)

theorem logged_journalWrite {f : Failover} (hj : f.jpos = f.journal.length)
    (ha : JournalEntry.size ∣ f.journal.length) : Logged (journalWrite f) := by
  have hw : (journalWrite f).journal = f.journal ++ (journalEntry f.count f.rindex).bytes := by
    rw [journalWrite, hj, overwrite_length]
  refine ⟨?_, f.journal, ha, hw⟩
  rw [hw, List.length_append, ← hj]
  rfl

theorem logged_reset : Logged .reset := ⟨rfl, [], ⟨0, rfl⟩, rfl⟩

namespace Stored

variable {f : Failover} {s : Saved}

theorem aligned (h : Stored f s) :
    f.jpos = f.journal.length ∧ JournalEntry.size ∣ f.journal.length := by
  rcases h.journal with ⟨hj, hnil, -, -⟩ | hl
  · rw [hj, hnil]
    exact ⟨rfl, ⟨0, rfl⟩⟩
  · exact hl.aligned

theorem start : Stored ⟨.empty, 0, [], 0, 0, 0, false⟩ .empty where
  data := rfl
  rindex := rfl
  rpos := rfl
  transaction := rfl
  journal := .inl ⟨rfl, rfl, rfl, rfl⟩
  whole := nofun
  unfinished := .nil

theorem reset : Stored .reset .empty where
  data := rfl
  rindex := rfl
  rpos := rfl
  transaction := rfl
  journal := .inr logged_reset
  whole := nofun
  unfinished := .nil

variable {m : Msg} {tv : Timeval} {fr : Frame} {data : DataFile}

theorem saveFragment (h : Stored f s) (hm : m.Emits tv fr) (hb : Clean s (.save fr))
    (hd : data.bytes = f.data.bytes ++ fr.bytes) (hfrag : fr.hdr.isFragment ≠ 0) :
    Stored { f with data } { s with tail := s.tail ++ [fr] } where
  data := by rw [hd, h.data]; simp
  rindex := h.rindex
  rpos := h.rpos
  transaction := h.transaction
  journal := h.journal
  whole := h.whole
  unfinished := by
    have hu := h.unfinished
    refine ⟨?_, ?_, ?_, hb⟩
    · exact List.forall_mem_append.mpr ⟨hu.flagged, List.forall_mem_singleton.mpr hfrag⟩
    · exact List.forall_mem_append.mpr
        ⟨hu.version, List.forall_mem_singleton.mpr hm.describes.version⟩
    · exact List.forall_mem_append.mpr
        ⟨hu.nonempty, List.forall_mem_singleton.mpr hm.holds.nonempty⟩

theorem saveLast (h : Stored f s) (hm : m.Emits tv fr) (hb : Clean s (.save fr))
    (hd : data.bytes = f.data.bytes ++ fr.bytes) (hfrag : fr.hdr.isFragment = 0) :
    Stored (journalWrite { f with data, count := f.count + 1 })
      { s with pending := s.pending ++ [s.tail ++ [fr]], tail := [] } where
  data := by
    change data.bytes = _
    rw [hd, h.data]
    simp
  rindex := h.rindex
  rpos := h.rpos
  transaction := h.transaction
  journal := .inr (logged_journalWrite h.aligned.1 h.aligned.2)
  whole := by
    have hu := h.unfinished
    refine List.forall_mem_append.mpr ⟨h.whole, List.forall_mem_singleton.mpr ⟨?_, ?_⟩⟩
    · refine ⟨s.tail, fr, hu.flagged, hfrag, ?_, ?_, hb⟩
      · exact List.forall_mem_append.mpr
          ⟨hu.version, List.forall_mem_singleton.mpr hm.describes.version⟩
      · exact List.forall_mem_append.mpr
          ⟨hu.nonempty, List.forall_mem_singleton.mpr hm.holds.nonempty⟩
    · rfl
  unfinished := .nil

theorem saveEmpty (h : Stored f s) : Stored (journalWrite { f with count := f.count + 1 }) s where
  data := h.data
  rindex := h.rindex
  rpos := h.rpos
  transaction := h.transaction
  journal := .inr (logged_journalWrite h.aligned.1 h.aligned.2)
  whole := h.whole
  unfinished := h.unfinished

theorem unread (h : Stored f s) :
    f.data.bytes.drop f.rpos = wire s.pending.flatten ++ wire s.tail := by
  rw [h.data, h.rpos, List.drop_left]

theorem commit (h : Stored f s) {w : WireMsg} {rest : List (List Frame)}
    (hp : s.pending = [w.last] :: rest) (hw : w.frames = [w.last]) :
    Stored (preludeFailoverCommit { f with rpos := f.rpos + w.bytes.length } w.msg)
      { s with returned := s.returned ++ [[w.last]], pending := rest } := by
  have hbytes : wire [w.last] = w.bytes := by rw [WireMsg.bytes, hw]
  have hlen : w.bytes.length = 16 + w.data.length := by
    rw [WireMsg.bytes, WireMsg.data, hw]
    simp
  have hle : f.rindex.toNat + w.bytes.length ≤ f.data.bytes.length := by
    rw [h.data, h.rindex, hp]
    simp [← hbytes]
  have hlt := f.data.length_lt
  have hsum : (f.rindex + (preludeMsgGetLen w.msg).toUInt64).toNat =
      f.rindex.toNat + w.bytes.length := by
    rw [UInt64.toNat_add, UInt32.toNat_toUInt64, preludeMsgGetLen, w.toNat_writeIndex_msg, ← hlen,
      Nat.mod_eq_of_lt (by omega)]
  have hret : wire (s.returned ++ [[w.last]]).flatten = wire s.returned.flatten ++ w.bytes := by
    rw [List.flatten_append, wire_append, ← hbytes]
    rfl
  refine ⟨?_, ?_, ?_, h.transaction, ?_, ?_, h.unfinished⟩
  · change f.data.bytes = _
    rw [hret, h.data, hp, List.flatten_cons, wire_append, hbytes]
    simp only [List.append_assoc]
  · rw [hret, List.length_append, ← h.rindex]
    exact hsum
  · rw [hret, List.length_append, ← h.rpos]
    rfl
  · exact .inr (logged_journalWrite h.aligned.1 h.aligned.2)
  · have hwhole := h.whole
    rw [hp] at hwhole
    exact (List.forall_mem_cons.mp hwhole).2

end Stored

theorem Stored.next {f : Failover} {s : Saved} (h : Stored f s) {g : List Frame}
    {rest : List (List Frame)} (hp : s.pending = g :: rest) :
    ∃ w : WireMsg, w.frames = g ∧ preludeFailoverGetSavedMsg f = some (.ok (16 + w.data.length),
      some w.msg, preludeFailoverCommit { f with rpos := f.rpos + w.bytes.length } w.msg) := by
  obtain ⟨w, rfl⟩ := h.whole g (by rw [hp]; exact List.mem_cons_self)
  have hunread := h.unread
  rw [hp, List.flatten_cons, wire_append, List.append_assoc] at hunread
  have hget := preludeFailoverGetSavedMsg_of_complete f hunread
  have ht : ¬ f.transactionEnabled = true := by rw [h.transaction]; decide
  exact ⟨w, rfl, hget.trans (by rw [if_neg ht])⟩

/-- A clean operation keeps the store in order. -/
theorem stored_of_reaches {f : Failover} {s : Saved} (h : Reaches Clean f s) : Stored f s := by
  induction h with
  | start => exact .start
  | @save f _ s _ _ _ fr _ _ hm hclean hsave ih =>
    rcases preludeFailoverSaveMsg_spec f hm with ⟨m₁, -, heq⟩ | ⟨data, m₁, hd, heq⟩
    · simp only [heq, Option.some.injEq, Prod.mk.injEq] at hsave
      obtain ⟨rfl, -, rfl⟩ := hsave
      exact ih
    · simp only [heq, Option.some.injEq, Prod.mk.injEq] at hsave
      obtain ⟨rfl, -, rfl⟩ := hsave
      have hbytes := length_bytes_of_append hd
      rw [if_pos rfl, Saved.save]
      split_ifs with hfrag
      · exact ih.saveFragment hm hclean hbytes hfrag
      · exact ih.saveLast hm hclean hbytes (not_not.mp hfrag)
  | @saveEmpty f _ _ _ _ _ _ _ hw hsave ih =>
    simp only [preludeFailoverSaveMsg_empty f hw, Option.some.injEq, Prod.mk.injEq] at hsave
    obtain ⟨-, -, rfl⟩ := hsave
    split_ifs
    · exact ih
    · exact ih.saveEmpty
  | @get f _ s _ _ _ hclean hget ih =>
    rcases hclean with ⟨hp, ht⟩ | ⟨fr, rest, hp⟩
    · have hunread := ih.unread
      rw [hp, ht] at hunread
      have heq := preludeFailoverGetSavedMsg_of_starved f (m := .fresh) (by rw [hunread]; rfl)
      simp only [heq, Option.some.injEq, Prod.mk.injEq] at hget
      obtain ⟨-, rfl, rfl⟩ := hget
      rw [ih.transaction]
      exact .reset
    · obtain ⟨w, hw, heq⟩ := ih.next hp
      simp only [heq, Option.some.injEq, Prod.mk.injEq] at hget
      obtain ⟨-, rfl, rfl⟩ := hget
      have hlast : w.last = fr := by
        have := List.append_inj' (show w.fragments ++ [w.last] = [] ++ [fr] from hw) rfl
        exact List.singleton_inj.mp this.2
      subst hlast
      have hcommit := ih.commit hp hw
      rw [Saved.get, hp]
      exact hcommit

theorem Logged.newest {f : Failover} (h : Logged f) :
    ∃ n, f.journal.length = JournalEntry.size * (n + 1) ∧
      f.journal.length / JournalEntry.size = n + 1 ∧
      newest checks JournalEntry.size f.journal (n + 1) = some n ∧
      entryAt f.journal n = journalEntry f.count f.rindex := by
  obtain ⟨-, pre, ⟨n, hn⟩, hj⟩ := h
  have hlen : f.journal.length = JournalEntry.size * (n + 1) := by
    rw [hj, List.length_append, length_bytes_journalEntry, hn, Nat.mul_succ]
  refine ⟨n, hlen, ?_, ?_, ?_⟩
  · rw [hlen, Nat.mul_div_cancel_left _ (by decide)]
  · rw [hj]
    exact newest_append hn (length_bytes_journalEntry _ _) (checks_journalEntry _ _)
  · rw [entryAt, hj, slot_append hn (length_bytes_journalEntry _ _), ofBytes_journalEntry]

theorem Logged.lastEntry {f : Failover} (h : Logged f) :
    lastEntry f.journal = some (journalEntry f.count f.rindex) := by
  obtain ⟨n, hlen, hdiv, -, hentry⟩ := h.newest
  rw [LibPrelude.lastEntry, if_pos (by rw [hlen]; exact Nat.le_mul_of_pos_right _ (Nat.succ_pos n)),
    hdiv, Nat.add_sub_cancel, hentry]

theorem Stored.consistent {f : Failover} {s : Saved} (h : Stored f s) : Consistent f s where
  data := h.data
  rindex := h.rindex
  entry := by
    intro e he
    rcases h.journal with ⟨-, hnil, -, -⟩ | hl
    · rw [hnil] at he
      cases he
    · rw [hl.lastEntry] at he
      cases he
      rfl

/-- Opening the files of a store again yields the messages not yet returned. -/
theorem Stored.reopen {f : Failover} {s : Saved} (h : Stored f s) :
    ∃ f₁, ∃ ws : List WireMsg, preludeFailoverNew f.data f.journal = some (.ok (), f₁) ∧
      ws.map WireMsg.frames = s.pending ∧
      ∀ fuel, ws.length < fuel → savedMsgs fuel f₁ = some (ws.map WireMsg.msg) := by
  obtain ⟨ws, hws⟩ : ∃ ws : List WireMsg, ws.map WireMsg.frames = s.pending := by
    have hwhole := h.whole
    generalize s.pending = gs at hwhole
    induction gs with
    | nil => exact ⟨[], rfl⟩
    | cons g gs ih =>
      obtain ⟨⟨w, rfl⟩, hgs⟩ := List.forall_mem_cons.mp hwhole
      obtain ⟨ws, rfl⟩ := ih hgs
      exact ⟨w :: ws, rfl⟩
  have hbytes : wire s.pending.flatten = ws.flatMap WireMsg.bytes := by
    rw [← hws]
    clear hws
    induction ws with
    | nil => rfl
    | cons w ws ih =>
      rw [List.map_cons, List.flatten_cons, wire_append, ih]
      rfl
  rcases h.journal with ⟨-, hnil, -, hpend⟩ | hl
  · obtain ⟨f₁, hnew, htr, hr⟩ := preludeFailoverNew_nil f.data
    obtain rfl : ws = [] := List.map_eq_nil_iff.mp (hws.trans hpend)
    refine ⟨f₁, [], by rw [hnil]; exact hnew, hws, fun fuel hf => ?_⟩
    exact savedMsgs_eq Unfinished.nil (by rw [htr.data, hr]; rfl) hf
  · obtain ⟨n, hlen, hdiv, hnewest, hentry⟩ := hl.newest
    have hone : 20 ≤ f.journal.length := by
      rw [hlen]
      exact Nat.le_mul_of_pos_right _ (Nat.succ_pos n)
    have hnew := preludeFailoverNew_eq f.data hone
    rw [hdiv, hnewest] at hnew
    simp only [hentry] at hnew
    have hunread := h.unread
    by_cases hle : f.data.bytes.length ≤ f.rindex.toNat
    · rw [show (journalEntry f.count f.rindex).rindex = f.rindex from rfl, if_pos hle] at hnew
      obtain rfl : ws = [] := by
        have hzero : f.data.bytes.drop f.rpos = [] :=
          List.drop_eq_nil_of_le (by rw [h.rpos, ← h.rindex]; exact hle)
        rw [hzero, hbytes] at hunread
        cases ws with
        | nil => rfl
        | cons w ws =>
          have := w.length_bytes_pos
          have := congrArg List.length hunread
          simp at this
          omega
      exact ⟨.reset, [], hnew, hws, fun fuel hf => savedMsgs_eq Unfinished.nil rfl hf⟩
    · rw [show (journalEntry f.count f.rindex).rindex = f.rindex from rfl, if_neg hle] at hnew
      refine ⟨_, ws, hnew, hws, fun fuel hf => savedMsgs_eq h.unfinished ?_ hf⟩
      rw [← hbytes, ← hunread, h.rpos, ← h.rindex]

/-- A message object that holds a frame not written yet. -/
def Msg.ofFrame (fr : Frame) : Msg where
  readIndex := 0
  headerIndex := 0
  writeIndex := UInt32.ofNat (16 + fr.body.length)
  fdWriteIndex := 0
  hdr := fr.hdr
  hdrbuf := List.replicate 16 0
  payload := some (List.replicate 16 0 ++ fr.body)

theorem Msg.emits_ofFrame (fr : Frame) (hv : fr.hdr.version = preludeMsgVersion)
    (hne : fr.body ≠ []) (hb : fr.body.length + 32 < 2 ^ 32) :
    (Msg.ofFrame fr).Emits ⟨fr.hdr.tvSec, fr.hdr.tvUsec⟩ fr where
  holds := by
    refine ⟨hne, hb, _, rfl, by rw [List.length_append, List.length_replicate], by simp,
      .inl ⟨rfl, ?_⟩⟩
    rw [Msg.ofFrame, UInt32.toNat_ofNat', Nat.mod_eq_of_lt (by omega)]
  start := rfl
  describes := ⟨hv, rfl, rfl, rfl, fr.length_body.symm⟩
  header := .inl ⟨rfl, rfl, rfl⟩

def fullFragment : Frame where
  hdr := ⟨preludeMsgVersion, 0, 0, 1, 8176, 0, 0⟩
  body := List.replicate 8176 0
  length_body := List.length_replicate

def shortLast : Frame where
  hdr := ⟨preludeMsgVersion, 0, 0, 0, 1, 0, 0⟩
  body := [0]
  length_body := rfl

theorem reaches_save {allowed : Saved → Op → Prop} {f : Failover} {s : Saved} {m : Msg}
    {tv : Timeval} {fr : Frame} (h : Reaches allowed f s) (hm : m.Emits tv fr)
    (ha : allowed s (.save fr)) (hl : f.data.bytes.length + fr.bytes.length < 2 ^ 63) :
    ∃ f', Reaches allowed f' (s.save fr) ∧ f'.data.bytes = f.data.bytes ++ fr.bytes := by
  rcases preludeFailoverSaveMsg_spec f hm with ⟨m₁, hd, -⟩ | ⟨data, m₁, hd, heq⟩
  · rw [← List.length_append] at hl
    rw [DataFile.append, dif_pos hl] at hd
    cases hd
  · refine ⟨_, h.save hm ha heq, ?_⟩
    have hbytes := length_bytes_of_append hd
    split_ifs
    · exact hbytes
    · exact hbytes

theorem Reaches.mono {p q : Saved → Op → Prop} {f : Failover} {s : Saved} (h : Reaches p f s)
    (hpq : ∀ s op, p s op → q s op) : Reaches q f s := by
  induction h with
  | start => exact .start
  | save _ hm ha hs ih => exact ih.save hm (hpq _ _ ha) hs
  | saveEmpty _ hw hs ih => exact ih.saveEmpty hw hs
  | get _ ha hg ih => exact ih.get (hpq _ _ ha) hg

theorem length_wire (fs : List Frame) :
    (wire fs).length = 16 * fs.length + (bodies fs).length := by
  induction fs with
  | nil => rfl
  | cons f fs ih =>
    rw [wire_cons, bodies_cons, List.length_append, List.length_append, Frame.length_bytes, ih,
      List.length_cons]
    omega

/-- Getting a message of several frames leaves the read index short of the next one. -/
theorem Stored.not_consistent {f : Failover} {s : Saved} (h : Stored f s) {w : WireMsg}
    {rest : List (List Frame)} (hp : s.pending = w.frames :: rest) (hw : w.fragments ≠ []) :
    ¬ Consistent (preludeFailoverCommit { f with rpos := f.rpos + w.bytes.length } w.msg)
      (s.get (some w.msg)) := by
  intro hc
  have hpos := List.length_pos_iff.mpr hw
  have hlen : w.bytes.length = 16 * (w.fragments.length + 1) + w.data.length := by
    rw [WireMsg.bytes, length_wire, WireMsg.frames, List.length_append]
    rfl
  have hret : (wire (s.get (some w.msg)).returned.flatten).length =
      f.rindex.toNat + w.bytes.length := by
    rw [Saved.get, hp, h.rindex]
    simp [WireMsg.bytes]
  have hsum : (f.rindex + (preludeMsgGetLen w.msg).toUInt64).toNat =
      (f.rindex.toNat + (16 + w.data.length)) % 2 ^ 64 := by
    rw [UInt64.toNat_add, UInt32.toNat_toUInt64, preludeMsgGetLen, w.toNat_writeIndex_msg]
  have hle := Nat.mod_le (f.rindex.toNat + (16 + w.data.length)) (2 ^ 64)
  have hri : (f.rindex + (preludeMsgGetLen w.msg).toUInt64).toNat = _ := hc.rindex
  rw [hret, hsum] at hri
  omega

/-- In every run of clean operations the read index is the offset of the first message not yet
returned, a get returns that message, and reopening the files yields all such messages. -/
theorem rindex_of_clean_run {f : Failover} {s : Saved} (h : Reaches Clean f s) :
    Consistent f s ∧
      (∀ g rest, s.pending = g :: rest → ∃ w : WireMsg, ∃ n f', w.frames = g ∧
        preludeFailoverGetSavedMsg f = some (.ok n, some w.msg, f')) ∧
      ∃ f₁, ∃ ws : List WireMsg, preludeFailoverNew f.data f.journal = some (.ok (), f₁) ∧
        ws.map WireMsg.frames = s.pending ∧
        ∀ fuel, ws.length < fuel → savedMsgs fuel f₁ = some (ws.map WireMsg.msg) := by
  have hs := stored_of_reaches h
  refine ⟨hs.consistent, fun g rest hp => ?_, hs.reopen⟩
  obtain ⟨w, hw, hget⟩ := hs.next hp
  exact ⟨w, _, _, hw, hget⟩

def nextLast : Frame where
  hdr := ⟨preludeMsgVersion, 0, 0, 0, 2, 0, 0⟩
  body := [1, 2]
  length_body := rfl

/-- Of two messages saved as one frame each, the first is returned. -/
theorem rindex_of_clean_run_nextLast : ∃ f s, Reaches Clean f s ∧
    s.returned = [[shortLast]] ∧ s.pending = [[nextLast]] ∧ Consistent f s ∧
    ∃ w : WireMsg, ∃ n f', w.frames = [nextLast] ∧
      preludeFailoverGetSavedMsg f = some (.ok n, some w.msg, f') := by
  have hm₁ := Msg.emits_ofFrame shortLast rfl (List.cons_ne_nil _ _) (by decide)
  have hm₂ := Msg.emits_ofFrame nextLast rfl (List.cons_ne_nil _ _) (by decide)
  have hstart : Reaches Clean ⟨.empty, 0, [], 0, 0, 0, false⟩ .empty := .start
  obtain ⟨f₁, hf₁, hb₁⟩ := reaches_save hstart hm₁ (by decide : 1 < maxMessageSize) (by decide)
  obtain ⟨f₂, hf₂, -⟩ := reaches_save hf₁ hm₂ (by decide : 2 < maxMessageSize)
    (by rw [hb₁]; decide)
  have hp : ((Saved.empty.save shortLast).save nextLast).pending =
      [shortLast] :: [[nextLast]] := rfl
  obtain ⟨w, -, hget⟩ := (stored_of_reaches hf₂).next hp
  have hf₃ := hf₂.get (.inr ⟨shortLast, [[nextLast]], hp⟩) hget
  obtain ⟨hc, hnext, -⟩ := rindex_of_clean_run hf₃
  exact ⟨_, _, hf₃, rfl, rfl, hc, hnext _ _ rfl⟩

/-- A message saved as two frames and returned leaves the read index inside of it. -/
theorem rindex_short_after_fragments :
    ¬ ∀ f s, Reaches (fun _ _ => True) f s → Consistent f s := by
  intro hall
  have hlen : fullFragment.body.length = 8176 := List.length_replicate
  have hm₁ := Msg.emits_ofFrame fullFragment rfl
    (List.ne_nil_of_length_pos (by rw [hlen]; decide)) (by rw [hlen]; decide)
  have hm₂ := Msg.emits_ofFrame shortLast rfl nofun (by decide)
  have hstart : Reaches Clean ⟨.empty, 0, [], 0, 0, 0, false⟩ .empty := .start
  have hclean₁ : Clean .empty (.save fullFragment) := by
    simp [Clean, Saved.empty, hlen, maxMessageSize]
  obtain ⟨f₁, hf₁, hb₁⟩ := reaches_save hstart hm₁ hclean₁ (by simp [DataFile.empty, hlen])
  have hsave : Saved.empty.save fullFragment = ⟨[], [], [fullFragment]⟩ := rfl
  have hclean₂ : Clean ⟨[], [], [fullFragment]⟩ (.save shortLast) := by
    have hlast : shortLast.body.length = 1 := rfl
    simp [Clean, hlen, hlast, maxMessageSize]
  rw [hsave] at hf₁
  obtain ⟨f₂, hf₂, -⟩ := reaches_save hf₁ hm₂ hclean₂
    (by simp [hb₁, DataFile.empty, hlen, shortLast])
  have hs := stored_of_reaches hf₂
  have hp : (Saved.save ⟨[], [], [fullFragment]⟩ shortLast).pending =
      [fullFragment, shortLast] :: [] := rfl
  obtain ⟨w, hw, hget⟩ := hs.next hp
  have hmulti : w.fragments ≠ [] := by
    intro hnil
    have hone := congrArg List.length hw
    rw [WireMsg.frames, hnil] at hone
    cases hone
  rw [← hw] at hp
  refine hs.not_consistent hp hmulti (hall _ _ ?_)
  exact (hf₂.mono fun _ _ _ => trivial).get trivial hget

end LibPrelude
