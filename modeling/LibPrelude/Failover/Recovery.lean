import LibPrelude.Failover.Store

/-! # Recovering the journal

Opening a store scans its journal backwards for the newest entry with a correct
checksum. A journal shorter than one entry makes the scan seek before the file,
and when no entry is correct the store keeps the values of the first one.
-/

namespace LibPrelude

open Bytes Slots

/-- The bytes of an entry whose checksum is correct. -/
def checks (bs : List UInt8) : Bool :=
  journalChecksum (.ofBytes bs) = (JournalEntry.ofBytes bs).checksum

def entryAt (journal : List UInt8) (i : ℕ) : JournalEntry :=
  .ofBytes (slot JournalEntry.size i journal)

def newestEntry (journal : List UInt8) : Option JournalEntry :=
  (newest checks JournalEntry.size journal (journal.length / JournalEntry.size)).map
    (entryAt journal)

/-- Both files are empty, up to an entry that says so. -/
structure Truncated (f : Failover) : Prop where
  data : f.data = .empty
  journal : f.journal = [] ∨ f.journal = (journalEntry 0 0).bytes
  count : f.count = 0
  rindex : f.rindex = 0

/-- The state that opening a store is to lead to. -/
structure Recovered (data : DataFile) (journal : List UInt8) (f : Failover) : Prop where
  newest : ∀ e, newestEntry journal = some e → e.rindex.toNat < data.bytes.length →
    f.count = e.count ∧ f.rindex = e.rindex ∧ f.data = data ∧ f.journal = journal
  consumed : ∀ e, newestEntry journal = some e → data.bytes.length ≤ e.rindex.toNat → Truncated f
  none : newestEntry journal = none → Truncated f
  rindex_le : f.rindex.toNat ≤ f.data.bytes.length
  rpos : f.rpos = f.rindex.toNat

theorem length_bytes_journalEntry (count rindex : UInt64) :
    (journalEntry count rindex).bytes.length = JournalEntry.size := by
  simp [JournalEntry.bytes, JournalEntry.body, journalEntry, journalChecksum, JournalEntry.size]

theorem ofBytes_journalEntry (count rindex : UInt64) :
    .ofBytes (journalEntry count rindex).bytes = journalEntry count rindex := by
  have hc : ofLe (leBytes 8 count.toNat) = count.toNat := ofLe_leBytes_of_lt count.toNat_lt
  have hr : ofLe (leBytes 8 rindex.toNat) = rindex.toNat := ofLe_leBytes_of_lt rindex.toNat_lt
  have hlen : (journalChecksum ⟨count, rindex, []⟩).length = 4 := length_beBytes 4 _
  have h8 (x : ℕ) : (leBytes 8 x).length = 8 := length_leBytes 8 x
  have hbody : (leBytes 8 count.toNat ++ leBytes 8 rindex.toNat).length = 16 := by simp
  unfold JournalEntry.ofBytes JournalEntry.bytes JournalEntry.body journalEntry
  simp only [JournalEntry.mk.injEq]
  refine ⟨?_, ?_, ?_⟩
  · rw [List.append_assoc, List.take_left' (h8 _), hc, UInt64.ofNat_toNat]
  · rw [List.append_assoc, List.drop_left' (h8 _), List.take_left' (h8 _), hr, UInt64.ofNat_toNat]
  · rw [List.drop_left' hbody, ← hlen, List.take_length]

theorem checks_journalEntry (count rindex : UInt64) :
    checks (journalEntry count rindex).bytes = true := by
  rw [checks, ofBytes_journalEntry]
  simp [journalEntry, journalChecksum, JournalEntry.body]

theorem truncateFailover_eq (f : Failover) : truncateFailover f =
    { f with
      data := .empty, journal := (journalEntry 0 0).bytes, rpos := 0, jpos := JournalEntry.size
      count := 0, rindex := 0 } := by
  have h := overwrite_length (0 : UInt8) [] (journalEntry 0 0).bytes
  simp only [List.length_nil, List.nil_append] at h
  simp [truncateFailover, journalWrite, h, length_bytes_journalEntry]

theorem truncated_truncateFailover (f : Failover) : Truncated (truncateFailover f) := by
  rw [truncateFailover_eq]
  exact ⟨rfl, .inr rfl, rfl, rfl⟩

theorem journalRead_slot {f : Failover} {i : ℕ} (h : 20 * (i + 1) ≤ f.journal.length) :
    journalRead { f with jpos := 20 * i } =
      some (entryAt f.journal i, { f with jpos := 20 * (i + 1) }) := by
  simp only [journalRead]
  rw [load_eq_some (by unfold JournalEntry.size; omega)]
  rfl

theorem journalCheck_of_checks {journal : List UInt8} {i : ℕ}
    (h : checks (slot JournalEntry.size i journal) = true) (f : Failover) (stSize : ℕ) :
    journalCheck f (entryAt journal i) stSize =
      if stSize ≤ (entryAt journal i).rindex.toNat then
        (.ok (), { entryAt journal i with rindex := 0, count := 0 }, truncateFailover f)
      else (.ok (), entryAt journal i, f) := by
  rw [checks, decide_eq_true_eq] at h
  change journalChecksum (entryAt journal i) = (entryAt journal i).checksum at h
  simp only [journalCheck, ne_eq, h, not_true_eq_false, if_false]
  split_ifs <;> first | rfl | omega

theorem journalCheck_of_not {journal : List UInt8} {i : ℕ}
    (h : ¬ checks (slot JournalEntry.size i journal) = true) (f : Failover) (stSize : ℕ) :
    journalCheck f (entryAt journal i) stSize = (.error .generic, entryAt journal i, f) := by
  rw [checks, decide_eq_true_eq] at h
  exact if_pos h

/-- The scan ends at the newest correct entry, or with the first entry and a fresh start. -/
theorem journalScan_spec (stSize : ℕ) {n : ℕ} (fuel : ℕ) (e : JournalEntry) (f : Failover)
    (hn : 0 < n)
    (hl : 20 * n ≤ f.journal.length) (hf : n < fuel) :
    journalScan stSize fuel (20 * n : ℕ) e f =
      match newest checks JournalEntry.size f.journal n with
      | some i =>
        let r := journalCheck { f with jpos := 20 * (i + 1) } (entryAt f.journal i) stSize
        some (.ok (), r.2.1, r.2.2)
      | none => some (.ok (), entryAt f.journal 0, truncateFailover f) := by
  induction n generalizing fuel e f with
  | zero => omega
  | succ n ih =>
    obtain ⟨fuel, rfl⟩ : ∃ k, fuel = k + 1 := ⟨fuel - 1, by omega⟩
    have hoff : ((20 * (n + 1) : ℕ) : ℤ) - JournalEntry.size = (20 * n : ℕ) := by
      simp [JournalEntry.size]; ring
    have hneg : ¬ ((20 * n : ℕ) : ℤ) < 0 := by omega
    simp only [journalScan, hoff, if_neg hneg, Int.toNat_natCast, journalRead_slot hl,
      Option.bind_some, newest]
    by_cases hc : checks (slot JournalEntry.size n f.journal) = true
    · have hcheck := journalCheck_of_checks hc { f with jpos := 20 * (n + 1) } stSize
      simp only [if_pos hc, hcheck]
      split <;> simp
    · have hcheck := journalCheck_of_not hc { f with jpos := 20 * (n + 1) } stSize
      rw [if_neg hc, hcheck]
      by_cases hz : n = 0
      · subst hz
        simp [newest, truncateFailover_eq]
      · have := ih fuel (entryAt f.journal n) { f with jpos := 20 * (n + 1) } (by omega)
          (by simp only; omega) (by omega)
        rw [truncateFailover_eq] at this ⊢
        simp only [ne_eq, reduceCtorEq, not_false_eq_true, and_true]
        rw [if_pos (by omega)]
        exact this

def Failover.reset : Failover :=
  ⟨.empty, 0, (journalEntry 0 0).bytes, JournalEntry.size, 0, 0, false⟩

theorem truncated_reset : Truncated .reset := ⟨rfl, .inr rfl, rfl, rfl⟩

theorem preludeFailoverNew_eq (data : DataFile) {journal : List UInt8} (hl : 20 ≤ journal.length) :
    preludeFailoverNew data journal = some (
      match newest checks JournalEntry.size journal (journal.length / JournalEntry.size) with
      | some i =>
        let e := entryAt journal i
        if data.bytes.length ≤ e.rindex.toNat then (.ok (), .reset)
        else (.ok (),
          ⟨data, e.rindex.toNat, journal, 20 * (i + 1), e.count, e.rindex, false⟩)
      | none =>
        let e := entryAt journal 0
        let f : Failover := { Failover.reset with count := e.count, rindex := e.rindex }
        if e.rindex.toNat < 2 ^ 63 then (.ok (), { f with rpos := e.rindex.toNat })
        else (.error .generic, f)) := by
  have hne : ¬ journal.length = 0 := by omega
  have hoff : journal.length - journal.length % JournalEntry.size =
      20 * (journal.length / JournalEntry.size) := by
    have := Nat.div_add_mod journal.length JournalEntry.size
    unfold JournalEntry.size at *
    omega
  have hscan := journalScan_spec data.bytes.length (n := journal.length / JournalEntry.size)
    (journal.length + 1) ⟨0, 0, [0, 0, 0, 0]⟩
    ⟨data, 0, journal, 0, 0, 0, false⟩ (Nat.div_pos hl (by decide))
    (by simp only [JournalEntry.size]; omega)
    (Nat.lt_succ_of_le (Nat.div_le_self _ _))
  simp only [preludeFailoverNew, journalInitialize, hne, false_and, if_false, journalReadLastEntry,
    hoff, hscan]
  cases hnew : newest checks JournalEntry.size journal (journal.length / JournalEntry.size) with
  | none =>
    simp only [truncateFailover_eq]
    rfl
  | some i =>
    obtain ⟨-, hi, -⟩ := newest_eq_some_iff.mp hnew
    have hcheck := journalCheck_of_checks hi ⟨data, 0, journal, 20 * (i + 1), 0, 0, false⟩
      data.bytes.length
    have hdata := data.length_lt
    simp only [hcheck, Option.map_some]
    by_cases hle : data.bytes.length ≤ (entryAt journal i).rindex.toNat
    · simp only [if_pos hle, truncateFailover_eq]
      rfl
    · simp only [if_neg hle]
      rw [if_pos (by omega)]

theorem preludeFailoverNew_of_short (data : DataFile) (journal : List UInt8) (h0 : journal ≠ [])
    (hl : journal.length < 20) :
    ∃ f, preludeFailoverNew data journal = some (.error .generic, f) := by
  have hne : ¬ journal.length = 0 := by simpa using h0
  have hoff : journal.length - journal.length % JournalEntry.size = 0 := by
    rw [Nat.mod_eq_of_lt (show journal.length < JournalEntry.size from hl), Nat.sub_self]
  simp only [preludeFailoverNew, journalInitialize, hne, false_and, if_false, journalReadLastEntry,
    hoff]
  exact ⟨_, rfl⟩

theorem preludeFailoverNew_nil (data : DataFile) :
    ∃ f, preludeFailoverNew data [] = some (.ok (), f) ∧ Truncated f ∧ f.rpos = 0 := by
  by_cases h0 : data.bytes = []
  · refine ⟨⟨data, 0, [], 0, 0, 0, false⟩, ?_, ⟨?_, .inl rfl, rfl, rfl⟩, rfl⟩
    · simp [preludeFailoverNew, journalInitialize, h0]
    · cases data
      cases h0
      rfl
  · refine ⟨_, if_pos ⟨rfl, List.length_pos_iff.mpr h0⟩, truncated_truncateFailover _, ?_⟩
    rw [truncateFailover_eq]

theorem Truncated.recovered {data : DataFile} {journal : List UInt8} {f : Failover}
    (h : Truncated f) (hr : f.rpos = 0)
    (hnew : ∀ e, newestEntry journal = some e → data.bytes.length ≤ e.rindex.toNat) :
    Recovered data journal f where
  newest e he hlt := absurd (hnew e he) (by omega)
  consumed _ _ _ := h
  none _ := h
  rindex_le := by rw [h.rindex]; exact Nat.zero_le _
  rpos := by rw [hr, h.rindex]; rfl

/-- Opening a store recovers it exactly when its journal is empty or at least one entry long,
with a correct checksum somewhere or zeroes in the first entry. -/
theorem recovered_iff (data : DataFile) (journal : List UInt8) :
    (∃ f, preludeFailoverNew data journal = some (.ok (), f) ∧ Recovered data journal f) ↔
      journal = [] ∨ (JournalEntry.size ≤ journal.length ∧
        ((∃ i < journal.length / JournalEntry.size,
            checks (slot JournalEntry.size i journal) = true) ∨
          ((entryAt journal 0).count = 0 ∧ (entryAt journal 0).rindex = 0))) := by
  by_cases h0 : journal = []
  · subst h0
    obtain ⟨f, hf, ht, hr⟩ := preludeFailoverNew_nil data
    refine iff_of_true ⟨f, hf, ht.recovered hr ?_⟩ (.inl rfl)
    simp [newestEntry, newest]
  by_cases hl : journal.length < JournalEntry.size
  · obtain ⟨f, hf⟩ := preludeFailoverNew_of_short data journal h0 hl
    refine iff_of_false ?_ ?_
    · rintro ⟨f', hf', -⟩
      rw [hf] at hf'
      cases hf'
    · rintro (h | ⟨h, -⟩)
      · exact h0 h
      · omega
  have heq := preludeFailoverNew_eq data (not_lt.mp hl)
  cases hnew : newest checks JournalEntry.size journal (journal.length / JournalEntry.size) with
  | some i =>
    obtain ⟨hi, hck, -⟩ := newest_eq_some_iff.mp hnew
    refine iff_of_true ?_ (.inr ⟨not_lt.mp hl, .inl ⟨i, hi, hck⟩⟩)
    have hentry : newestEntry journal = some (entryAt journal i) := by rw [newestEntry, hnew]; rfl
    rw [hnew] at heq
    simp only at heq
    by_cases hle : data.bytes.length ≤ (entryAt journal i).rindex.toNat
    · rw [if_pos hle] at heq
      refine ⟨_, heq, truncated_reset.recovered rfl fun e he => ?_⟩
      rw [hentry] at he
      cases he
      exact hle
    · rw [if_neg hle] at heq
      refine ⟨_, heq, fun e he hlt => ?_, fun e he hge => ?_, fun h => ?_, ?_, rfl⟩
      · rw [hentry] at he
        cases he
        exact ⟨rfl, rfl, rfl, rfl⟩
      · rw [hentry] at he
        cases he
        exact absurd hge hle
      · rw [hentry] at h
        cases h
      · exact Nat.le_of_not_le hle
  | none =>
    have hnone := newest_eq_none_iff.mp hnew
    have hentry : newestEntry journal = none := by rw [newestEntry, hnew]; rfl
    rw [hnew] at heq
    simp only at heq
    by_cases hz : (entryAt journal 0).count = 0 ∧ (entryAt journal 0).rindex = 0
    · refine iff_of_true ?_ (.inr ⟨not_lt.mp hl, .inr hz⟩)
      rw [hz.1, hz.2, if_pos (by decide)] at heq
      exact ⟨_, heq, truncated_reset.recovered rfl fun e he => by simp [hentry] at he⟩
    · refine iff_of_false ?_ ?_
      · rintro ⟨f, hf, hrec⟩
        have ht := hrec.none hentry
        rw [heq] at hf
        split at hf
        · cases hf
          exact hz ⟨ht.count, ht.rindex⟩
        · cases hf
      · rintro (h | ⟨-, ⟨i, hi, hck⟩ | h⟩)
        · exact h0 h
        · rw [hnone i hi] at hck
          cases hck
        · exact hz h

/-- A journal with one byte makes opening the store fail. -/
theorem short_journal_not_recovered :
    ¬ ∃ f, preludeFailoverNew .empty [0] = some (.ok (), f) ∧ Recovered .empty [0] f := by
  obtain ⟨f, hf⟩ := preludeFailoverNew_of_short .empty [0] (by decide) (by decide)
  rintro ⟨f', hf', -⟩
  rw [hf] at hf'
  cases hf'

end LibPrelude
