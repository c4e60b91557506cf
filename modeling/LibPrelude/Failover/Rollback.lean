import LibPrelude.Failover.Runs

/-! # Transactions of the failover store

With transactions a get leaves the journal alone, and the caller commits the
message or rolls it back. The rollback seeks by the negated length of the message,
which is unsigned and of 32 bits while an offset has 64, so that it seeks forward.
-/

namespace LibPrelude

open Bytes Resume Slots

/-- Move a file offset; no file reaches past the largest offset. -/
def lseekCur (pos : ℕ) (off : ℤ) : Option ℕ :=
  if 0 ≤ pos + off ∧ (pos + off).toNat < 2 ^ 63 then some (pos + off).toNat else none

theorem lseekCur_natCast (pos n : ℕ) :
    lseekCur pos n = if pos + n < 2 ^ 63 then some (pos + n) else none := by
  unfold lseekCur
  have hnonneg : (0 : ℤ) ≤ pos + n := by omega
  rw [← Nat.cast_add, Int.toNat_natCast] at *
  simp only [hnonneg, true_and]

/-- The length is negated as an unsigned number of 32 bits. -/
def preludeFailoverRollback (f : Failover) (m : Msg) : Ret × Failover :=
  match lseekCur f.rpos (-preludeMsgGetLen m).toNat with
  | none => (.error .generic, f)
  | some off => (.ok (), { f with rpos := off })

theorem preludeFailoverRollback_of_lt {f : Failover} {m : Msg}
    (h : f.rpos + (-preludeMsgGetLen m).toNat < 2 ^ 63) :
    preludeFailoverRollback f m =
      (.ok (), { f with rpos := f.rpos + (-preludeMsgGetLen m).toNat }) := by
  simp only [preludeFailoverRollback, lseekCur_natCast, h, if_true]

theorem preludeFailoverRollback_of_ge {f : Failover} {m : Msg}
    (h : ¬ f.rpos + (-preludeMsgGetLen m).toNat < 2 ^ 63) :
    preludeFailoverRollback f m = (.error .generic, f) := by
  simp only [preludeFailoverRollback, lseekCur_natCast, h, if_false]

def preludeFailoverEnableTransaction (f : Failover) : Failover :=
  { f with transactionEnabled := true }

def preludeFailoverDisableTransaction (f : Failover) : Failover :=
  { f with transactionEnabled := false }

/-- The states of a store that was opened on some files and used in any way. -/
inductive Used : Failover → Prop
  | opened {data : DataFile} {journal : List UInt8} {f : Failover} :
      preludeFailoverNew data journal = some (.ok (), f) → Used f
  | enable {f : Failover} : Used f → Used (preludeFailoverEnableTransaction f)
  | disable {f : Failover} : Used f → Used (preludeFailoverDisableTransaction f)
  | save {f f' : Failover} {m m' : Msg} {tv : Timeval} {ret : Ret} :
      Used f → preludeFailoverSaveMsg tv m f = some (ret, m', f') → Used f'
  | get {f f' : Failover} {ret : Except ErrorCode ℕ} {msg : Option Msg} :
      Used f → preludeFailoverGetSavedMsg f = some (ret, msg, f') → Used f'
  | commit {f : Failover} (m : Msg) : Used f → Used (preludeFailoverCommit f m)
  | rollback {f : Failover} (m : Msg) : Used f → Used (preludeFailoverRollback f m).2

/-- The unread part of the data file begins with the frames of a message. -/
def Unread (f : Failover) (w : WireMsg) : Prop :=
  ∃ rest, f.data.bytes.drop f.rpos = w.bytes ++ rest

def GetsSaved (f : Failover) (w : WireMsg) (f₁ : Failover) : Prop :=
  preludeFailoverGetSavedMsg f = some (.ok (16 + w.data.length), some w.msg, f₁)

/-- A rollback after a get undoes it, and the next get returns the same message. -/
def RollsBack (f : Failover) (w : WireMsg) : Prop :=
  ∃ f₁, GetsSaved f w f₁ ∧ preludeFailoverRollback f₁ w.msg = (.ok (), f) ∧ ∃ f₂, GetsSaved f w f₂

/-- One message fewer is left, and the first of those left begins after the frames of `w`. -/
structure MovedPast (f : Failover) (w : WireMsg) (f' : Failover) : Prop where
  data : f'.data = f.data
  rpos : f'.rpos = f.rpos + w.bytes.length
  count : f'.count.toNat = f.count.toNat - 1
  rindex : f'.rindex = f.rindex + UInt64.ofNat w.bytes.length
  jpos : f'.jpos = f.jpos + JournalEntry.size
  journal : (f'.journal.drop f.jpos).take JournalEntry.size =
    (journalEntry f'.count f'.rindex).bytes

/-- A commit after a get moves the store past the message. -/
def CommitsPast (f : Failover) (w : WireMsg) : Prop :=
  ∃ f₁, GetsSaved f w f₁ ∧ MovedPast f w (preludeFailoverCommit f₁ w.msg)

theorem length_bytes_eq (w : WireMsg) :
    w.bytes.length = 16 * w.fragments.length + (16 + w.data.length) := by
  rw [WireMsg.bytes, length_wire, WireMsg.frames, List.length_append, WireMsg.data, WireMsg.frames]
  change 16 * (w.fragments.length + 1) + _ = _
  omega

section Get

variable {f f₁ : Failover} {w : WireMsg}

theorem getsSaved_iff (ht : f.transactionEnabled = true) (hu : Unread f w) :
    GetsSaved f w f₁ ↔ f₁ = { f with rpos := f.rpos + w.bytes.length } := by
  obtain ⟨rest, hp⟩ := hu
  have hget := preludeFailoverGetSavedMsg_of_complete f hp
  simp only [if_pos ht] at hget
  rw [GetsSaved, hget, Option.some.injEq, Prod.mk.injEq, Prod.mk.injEq]
  exact ⟨fun h => h.2.2.symm, fun h => ⟨rfl, rfl, h.symm⟩⟩

theorem Unread.length_le (hu : Unread f w) :
    f.rpos + w.bytes.length ≤ f.data.bytes.length := by
  obtain ⟨rest, hp⟩ := hu
  have hlen := congrArg List.length hp
  have hpos := w.length_bytes_pos
  rw [List.length_drop, List.length_append] at hlen
  omega

theorem toNat_neg_preludeMsgGetLen (w : WireMsg) :
    (-preludeMsgGetLen w.msg).toNat = 2 ^ 32 - (16 + w.data.length) := by
  have hlt : w.data.length < maxMessageSize := w.bounded
  unfold maxMessageSize at hlt
  rw [UInt32.toNat_neg, preludeMsgGetLen, w.toNat_writeIndex_msg]
  have hsize : UInt32.size = 2 ^ 32 := rfl
  rw [hsize]
  exact Nat.mod_eq_of_lt (by omega)

/-- A rollback of a message just read leaves the read offset where it is or moves it forward. -/
theorem rpos_preludeFailoverRollback (hr : f₁.rpos = f.rpos + w.bytes.length) :
    f.rpos < (preludeFailoverRollback f₁ w.msg).2.rpos := by
  have hpos := w.length_bytes_pos
  by_cases hseek : f₁.rpos + (-preludeMsgGetLen w.msg).toNat < 2 ^ 63
  · rw [preludeFailoverRollback_of_lt hseek, hr]
    exact lt_of_lt_of_le (Nat.lt_add_of_pos_right hpos) (Nat.le_add_right _ _)
  · rw [preludeFailoverRollback_of_ge hseek, hr]
    exact Nat.lt_add_of_pos_right hpos

theorem not_rollsBack (ht : f.transactionEnabled = true) (hu : Unread f w) : ¬ RollsBack f w := by
  rintro ⟨f₁, hget, hback, -⟩
  obtain rfl := (getsSaved_iff ht hu).mp hget
  have hmove : f.rpos < _ := @rpos_preludeFailoverRollback f { f with rpos := _ } w rfl
  rw [hback] at hmove
  exact absurd hmove (lt_irrefl _)

/-- In a store of less than four gigabytes the rollback loses every message. -/
theorem rollback_empties (ht : f.transactionEnabled = true) (hu : Unread f w)
    (hsmall : f.data.bytes.length ≤ 2 ^ 32) (hget : GetsSaved f w f₁) :
    (preludeFailoverRollback f₁ w.msg).1 = .ok () ∧
      preludeFailoverGetSavedMsg (preludeFailoverRollback f₁ w.msg).2 =
        some (.ok 0, none, { Failover.reset with transactionEnabled := true }) := by
  obtain rfl := (getsSaved_iff ht hu).mp hget
  have hle := hu.length_le
  have hlen := length_bytes_eq w
  have hlt : w.data.length < maxMessageSize := w.bounded
  unfold maxMessageSize at hlt
  have hseek : lseekCur (f.rpos + w.bytes.length : ℕ) (-preludeMsgGetLen w.msg).toNat =
      some (f.rpos + w.bytes.length + (2 ^ 32 - (16 + w.data.length))) := by
    rw [lseekCur_natCast, toNat_neg_preludeMsgGetLen, if_pos (by omega)]
  simp only [preludeFailoverRollback, hseek, true_and]
  have hend : f.data.bytes.drop
      (f.rpos + w.bytes.length + (2 ^ 32 - (16 + w.data.length))) = [] :=
    List.drop_eq_nil_of_le (by omega)
  have hstarved := preludeFailoverGetSavedMsg_of_starved (m := .fresh)
    { f with rpos := f.rpos + w.bytes.length + (2 ^ 32 - (16 + w.data.length)) }
    (by rw [hend]; rfl)
  rw [hstarved, ht]

theorem commitsPast_iff (ht : f.transactionEnabled = true) (hu : Unread f w) :
    CommitsPast f w ↔ w.fragments = [] := by
  have hlen := length_bytes_eq w
  have hle := hu.length_le
  have hfile := f.data.length_lt
  have hadvance : (preludeMsgGetLen w.msg).toUInt64 = UInt64.ofNat (16 + w.data.length) := by
    rw [← UInt64.toNat_inj, UInt32.toNat_toUInt64, preludeMsgGetLen, w.toNat_writeIndex_msg,
      UInt64.toNat_ofNat', Nat.mod_eq_of_lt (by omega)]
  constructor
  · rintro ⟨f₁, hget, hpast⟩
    obtain rfl := (getsSaved_iff ht hu).mp hget
    have hindex : f.rindex + (preludeMsgGetLen w.msg).toUInt64 =
        f.rindex + UInt64.ofNat w.bytes.length := hpast.rindex
    rw [hadvance, UInt64.add_right_inj, ← UInt64.toNat_inj, UInt64.toNat_ofNat',
      UInt64.toNat_ofNat', Nat.mod_eq_of_lt (by omega), Nat.mod_eq_of_lt (by omega)] at hindex
    exact List.length_eq_zero_iff.mp (by omega)
  · intro hsingle
    have hzero : w.fragments.length = 0 := by rw [hsingle]; rfl
    refine ⟨_, (getsSaved_iff ht hu).mpr rfl, rfl, rfl, ?_, ?_, rfl, ?_⟩
    · change (if f.count > 0 then f.count - 1 else f.count).toNat = f.count.toNat - 1
      split_ifs with hcount
      · rw [gt_iff_lt, UInt64.lt_iff_toNat_lt] at hcount
        have hone : (1 : UInt64).toNat = 1 := rfl
        have hzero : (0 : UInt64).toNat = 0 := rfl
        rw [UInt64.toNat_sub_of_le _ _ (by rw [UInt64.le_iff_toNat_le]; omega), hone]
      · rw [gt_iff_lt, UInt64.lt_iff_toNat_lt] at hcount
        have hzero : (0 : UInt64).toNat = 0 := rfl
        omega
    · change f.rindex + (preludeMsgGetLen w.msg).toUInt64 = _
      rw [hadvance, hlen, hzero, Nat.mul_zero, Nat.zero_add]
    · rw [← length_bytes_journalEntry]
      exact take_drop_overwrite _ _ _ _

end Get

/-- With transactions no rollback restores the store, and a commit moves it past exactly the
messages of one frame. -/
theorem transaction_of_unread {f : Failover} {w : WireMsg} (ht : f.transactionEnabled = true)
    (hu : Unread f w) : ¬ RollsBack f w ∧ (CommitsPast f w ↔ w.fragments = []) :=
  ⟨not_rollsBack ht hu, commitsPast_iff ht hu⟩

def shortWire : WireMsg where
  fragments := []
  last := shortLast
  flagged := nofun
  unflagged := rfl
  version := List.forall_mem_singleton.mpr rfl
  nonempty := List.forall_mem_singleton.mpr nofun
  bounded := by decide

theorem used_shortWire : ∃ f, Used f ∧ f.transactionEnabled = true ∧ Unread f shortWire := by
  have hopened : Used ⟨.empty, 0, [], 0, 0, 0, false⟩ :=
    @Used.opened .empty [] _ rfl
  have hm := Msg.emits_ofFrame shortLast rfl nofun (by decide)
  rcases preludeFailoverSaveMsg_spec ⟨.empty, 0, [], 0, 0, 0, false⟩ hm with
    ⟨m, happend, -⟩ | ⟨data, m, happend, hsave⟩
  · rw [DataFile.append, dif_pos (by decide)] at happend
    cases happend
  · refine ⟨_, (hopened.save hsave).enable, rfl, [], ?_⟩
    rw [if_neg (by decide), List.append_nil]
    exact length_bytes_of_append happend

theorem transaction_of_unread_shortWire :
    ∃ f, Used f ∧ ¬ RollsBack f shortWire ∧
      (CommitsPast f shortWire ↔ shortWire.fragments = []) := by
  obtain ⟨f, hused, ht, hu⟩ := used_shortWire
  exact ⟨f, hused, transaction_of_unread ht hu⟩

/-- The message is not returned again after a get and a rollback. -/
theorem rollback_skips_shortWire :
    ¬ ∀ f w, Used f → f.transactionEnabled = true → Unread f w →
      RollsBack f w ∧ CommitsPast f w := by
  intro hall
  obtain ⟨f, hused, ht, hu⟩ := used_shortWire
  exact not_rollsBack ht hu (hall f shortWire hused ht hu).1

end LibPrelude
