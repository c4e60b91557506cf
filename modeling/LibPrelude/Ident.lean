import Mathlib.Data.List.Pairwise
import Mathlib.Tactic.Push
import LibPrelude.General.Bytes

/-! # Message identifiers

Identifiers are made of a timestamp in units of 100 nanoseconds and a clock sequence.
The clock counts microseconds, so several identifiers of one reading are told apart by
a count added to the timestamp. The count goes up to ten, one more than the units of a
microsecond, and the clock sequence never changes.
-/

namespace LibPrelude

def uuidsPerTick : ℕ := 10

def uuidTimeoffset : ℕ := 0x01b21dd213814000

/-- A reading of the system clock, below 2^60 in units of 100 nanoseconds. -/
structure ClockReading where
  sec : ℕ
  usec : ℕ
  bounded : sec * 10000000 + usec * 10 + uuidTimeoffset < 2 ^ 60

structure PreludeIdent where
  tick : ℕ
  last : ℕ
  clockseq : UInt16

def getSystemTime (tv : ClockReading) : ℕ := tv.sec * 10000000 + tv.usec * 10 + uuidTimeoffset

/-- What one reading makes of the count and the last reading; the count stays when it is used up. -/
def PreludeIdent.tock (ident : PreludeIdent) (now : ℕ) : PreludeIdent :=
  if ident.last ≠ now then { ident with last := now, tick := 0 }
  else if ident.tick < uuidsPerTick then { ident with tick := ident.tick + 1 }
  else ident

/-- Read the clock until the count is not used up; there is no result while all of the readings are
spun through. -/
def getCurrentTime (ident : PreludeIdent) :
    List ClockReading → Option (ℕ × PreludeIdent × List ClockReading)
  | [] => none
  | tv :: rest =>
    let now := getSystemTime tv
    if ident.last ≠ now ∨ ident.tick < uuidsPerTick then
      some (now + (ident.tock now).tick, ident.tock now, rest)
    else getCurrentTime ident rest

structure Uuid where
  timeLow : ℕ
  timeMid : ℕ
  timeHiAndVersion : ℕ
  clockSeqHiAndReserved : ℕ
  clockSeqLow : ℕ

/-- The fields of the identifier; the version and the variant are in the high bits. -/
def Uuid.ofTimestamp (timestamp : ℕ) (clockseq : UInt16) : Uuid where
  timeLow := timestamp % 2 ^ 32
  timeMid := timestamp / 2 ^ 32 % 2 ^ 16
  timeHiAndVersion := timestamp / 2 ^ 48 % 2 ^ 12 + 2 ^ 12
  clockSeqHiAndReserved := clockseq.toNat / 2 ^ 8 % 2 ^ 6 + 2 ^ 7
  clockSeqLow := clockseq.toNat % 2 ^ 8

/-- The last reading is already that of the new timestamp when they are compared. -/
def uuidgen (ident : PreludeIdent) (clock : List ClockReading) :
    Option (Uuid × PreludeIdent × List ClockReading) :=
  (getCurrentTime ident clock).map fun (timestamp, ident, clock) =>
    let ident :=
      if timestamp < ident.last then { ident with clockseq := ident.clockseq + 1 } else ident
    (.ofTimestamp timestamp ident.clockseq, ident, clock)

def hexDigit (d : ℕ) : UInt8 := UInt8.ofNat (if d < 10 then 48 + d else 87 + d)

def hex : ℕ → ℕ → List UInt8
  | 0, _ => []
  | width + 1, n => hex width (n / 16) ++ [hexDigit (n % 16)]

def Uuid.text (u : Uuid) : List UInt8 :=
  hex 8 u.timeLow ++ 45 :: (hex 4 u.timeMid ++ 45 :: (hex 4 u.timeHiAndVersion ++
    45 :: (hex 2 u.clockSeqHiAndReserved ++ hex 2 u.clockSeqLow)))

def preludeIdentGenerate (ident : PreludeIdent) (clock : List ClockReading) :
    Option (List UInt8 × PreludeIdent × List ClockReading) :=
  (uuidgen ident clock).map fun (u, ident, clock) => (u.text, ident, clock)

def preludeIdentNew (clockseq : UInt16) : PreludeIdent := ⟨0, 0, clockseq⟩

/-- The texts of a number of calls, each with what the call leaves; the text is made of the last
reading. -/
def identRun : ℕ → PreludeIdent → List ClockReading → Option (List (List UInt8 × PreludeIdent))
  | 0, _, _ => some []
  | calls + 1, ident, clock =>
    (preludeIdentGenerate ident clock).bind fun (text, ident, clock) =>
      (identRun calls ident clock).map ((text, ident) :: ·)

def clockSeqPart (text : List UInt8) : List UInt8 := text.drop 19

/-- A clock that went back has changed the clock sequence. -/
def Resequenced (r r' : List UInt8 × PreludeIdent) : Prop :=
  r'.2.last < r.2.last → clockSeqPart r'.1 ≠ clockSeqPart r.1

structure IdentsApart (idents : List (List UInt8 × PreludeIdent)) : Prop where
  distinct : (idents.map Prod.fst).Nodup
  /-- The timestamp of a text is one of the microsecond of its reading. -/
  within : ∀ r ∈ idents, ∃ t seq, r.2.last ≤ t ∧ t < r.2.last + 10 ∧
    r.1 = (Uuid.ofTimestamp t seq).text
  resequenced : idents.IsChain Resequenced

/-- The clock never goes back, and no microsecond is read more than ten times. -/
structure Steady (clock : List ClockReading) : Prop where
  forward : (clock.map getSystemTime).Pairwise (· ≤ ·)
  count_le : ∀ tv ∈ clock, (clock.map getSystemTime).count (getSystemTime tv) ≤ uuidsPerTick

/-- The readings go on steadily from what the calls so far have left. -/
def SteadyFrom (ident : PreludeIdent) : List ClockReading → Prop
  | [] => True
  | tv :: rest => ident.last ≤ getSystemTime tv ∧
    (getSystemTime tv = ident.last → ident.tick + 1 < uuidsPerTick) ∧
      SteadyFrom (ident.tock (getSystemTime tv)) rest

/-- The last reading is one of the clock, or nothing was read. -/
structure PreludeIdent.Counted (ident : PreludeIdent) : Prop where
  tick_lt : ident.tick < uuidsPerTick
  last : (ident.last = 0 ∧ ident.tick = 0) ∨
    (uuidTimeoffset ≤ ident.last ∧ ident.last < 2 ^ 60 ∧ ident.last % 10 = uuidTimeoffset % 10)

section

variable {ident ident' : PreludeIdent} {clock clock' : List ClockReading} {tv : ClockReading}
  {timestamp : ℕ}

theorem getSystemTime_spec (tv : ClockReading) : uuidTimeoffset ≤ getSystemTime tv ∧
    getSystemTime tv < 2 ^ 60 ∧ getSystemTime tv % 10 = uuidTimeoffset % 10 := by
  have := tv.bounded
  unfold getSystemTime
  omega

@[simp]
theorem PreludeIdent.tock_last (ident : PreludeIdent) (now : ℕ) : (ident.tock now).last = now := by
  unfold PreludeIdent.tock
  split_ifs <;> simp_all

@[simp]
theorem PreludeIdent.tock_clockseq (ident : PreludeIdent) (now : ℕ) :
    (ident.tock now).clockseq = ident.clockseq := by
  unfold PreludeIdent.tock
  split_ifs <;> rfl

theorem PreludeIdent.tock_tick (h : ident.tick < uuidsPerTick) (now : ℕ) :
    (ident.tock now).tick = if now = ident.last then ident.tick + 1 else 0 := by
  unfold PreludeIdent.tock
  split_ifs <;> simp_all

theorem PreludeIdent.tock_tick_lt_iff (h : ident.tick < uuidsPerTick) (now : ℕ) :
    (ident.tock now).tick < uuidsPerTick ↔ (now = ident.last → ident.tick + 1 < uuidsPerTick) := by
  rw [PreludeIdent.tock_tick h]
  split_ifs with hlast
  · simp [hlast]
  · exact iff_of_true (by decide) fun hl => absurd hl hlast

theorem PreludeIdent.Counted.tock (tv : ClockReading)
    (h : (ident.tock (getSystemTime tv)).tick < uuidsPerTick) :
    (ident.tock (getSystemTime tv)).Counted :=
  ⟨h, .inr (by rw [PreludeIdent.tock_last]; exact getSystemTime_spec tv)⟩

theorem preludeIdentGenerate_cons (h : ident.tick < uuidsPerTick) (tv : ClockReading)
    (rest : List ClockReading) : preludeIdentGenerate ident (tv :: rest) =
      some ((Uuid.ofTimestamp (getSystemTime tv + (ident.tock (getSystemTime tv)).tick)
        ident.clockseq).text, ident.tock (getSystemTime tv), rest) := by
  rw [preludeIdentGenerate, uuidgen, getCurrentTime, if_pos (.inr h)]
  simp

theorem hexDigit_inj {a b : ℕ} (ha : a < 16) (hb : b < 16) (h : hexDigit a = hexDigit b) :
    a = b := by
  have : ∀ a < 16, ∀ b < 16, hexDigit a = hexDigit b → a = b := by decide
  exact this a ha b hb h

theorem length_hex (width n : ℕ) : (hex width n).length = width := by
  induction width generalizing n with
  | zero => rfl
  | succ width ih => simp [hex, ih]

theorem hex_inj {width m n : ℕ} (hm : m < 16 ^ width) (hn : n < 16 ^ width)
    (h : hex width m = hex width n) : m = n := by
  induction width generalizing m n with
  | zero => omega
  | succ width ih =>
    obtain ⟨hhigh, hlow⟩ := List.append_inj' h rfl
    have hdigit := hexDigit_inj (Nat.mod_lt _ (by decide)) (Nat.mod_lt _ (by decide))
      (List.cons.inj hlow).1
    have hrest := ih (by rw [pow_succ] at hm; omega) (by rw [pow_succ] at hn; omega) hhigh
    omega

theorem clockSeqPart_text (t : ℕ) (seq : UInt16) :
    clockSeqPart (Uuid.ofTimestamp t seq).text = clockSeqPart (Uuid.ofTimestamp 0 seq).text := by
  have hpart (t : ℕ) : clockSeqPart (Uuid.ofTimestamp t seq).text =
      hex 2 (seq.toNat / 2 ^ 8 % 2 ^ 6 + 2 ^ 7) ++ hex 2 (seq.toNat % 2 ^ 8) := by
    have htext : (Uuid.ofTimestamp t seq).text =
        (hex 8 (t % 2 ^ 32) ++ 45 :: (hex 4 (t / 2 ^ 32 % 2 ^ 16) ++
          45 :: (hex 4 (t / 2 ^ 48 % 2 ^ 12 + 2 ^ 12) ++ [45]))) ++
        (hex 2 (seq.toNat / 2 ^ 8 % 2 ^ 6 + 2 ^ 7) ++ hex 2 (seq.toNat % 2 ^ 8)) := by
      simp [Uuid.text, Uuid.ofTimestamp]
    rw [clockSeqPart, htext]
    exact List.drop_left' (by simp [length_hex])
  rw [hpart, hpart]

theorem getCurrentTime_spec
    (hget : getCurrentTime ident clock = some (timestamp, ident', clock')) :
    timestamp = ident'.last + ident'.tick ∧ timestamp ≥ ident'.last ∧
      ident'.tick ≤ uuidsPerTick ∧ uuidTimeoffset ≤ ident'.last ∧ ident'.last < 2 ^ 60 := by
  induction clock with
  | nil => cases hget
  | cons tv rest ih =>
    rw [getCurrentTime] at hget
    split_ifs at hget with hif
    · obtain ⟨rfl, rfl, rfl⟩ : _ = timestamp ∧ _ = ident' ∧ _ = clock' := by simpa using hget
      have hnow := getSystemTime_spec tv
      have htick : (ident.tock (getSystemTime tv)).tick ≤ uuidsPerTick := by
        unfold PreludeIdent.tock
        split_ifs with hlast htick
        · exact Nat.zero_le _
        · exact htick
        · exact absurd hif (not_or.mpr ⟨hlast, htick⟩)
      rw [PreludeIdent.tock_last]
      exact ⟨rfl, Nat.le_add_right _ _, htick, hnow.1, hnow.2.1⟩
    · exact ih hget

theorem identRun_text {calls : ℕ} {idents : List (List UInt8 × PreludeIdent)}
    (hrun : identRun calls ident clock = some idents) :
    ∀ r ∈ idents, r.1 = (Uuid.ofTimestamp (r.2.last + r.2.tick) r.2.clockseq).text ∧
      r.2.tick ≤ uuidsPerTick ∧ uuidTimeoffset ≤ r.2.last ∧ r.2.last < 2 ^ 60 := by
  induction calls generalizing ident clock idents with
  | zero =>
    cases hrun
    exact List.forall_mem_nil _
  | succ calls ih =>
    simp only [identRun, preludeIdentGenerate, uuidgen, Option.map_map, Option.bind_eq_some_iff,
      Option.map_eq_some_iff] at hrun
    obtain ⟨⟨text, ident', clock'⟩, ⟨⟨timestamp, ident₁, clock₁⟩, hget, heq⟩, idents, hrun, rfl⟩ :=
      hrun
    obtain ⟨hstamp, hge, htick, hlast⟩ := getCurrentTime_spec hget
    simp only [Function.comp_apply, if_neg (not_lt.mpr hge), Prod.mk.injEq] at heq
    obtain ⟨rfl, rfl, rfl⟩ := heq
    exact List.forall_mem_cons.mpr ⟨⟨by rw [hstamp], htick, hlast⟩, ih hrun⟩

/-- The calls keep apart what they generate just if the readings go on steadily. -/
theorem identRun_iff {calls : ℕ} {text : List UInt8} {idents : List (List UInt8 × PreludeIdent)}
    (h : ident.tick < uuidsPerTick)
    (htext : clockSeqPart text = clockSeqPart (Uuid.ofTimestamp 0 ident.clockseq).text)
    (hrun : identRun calls ident clock = some idents) :
    ((∀ r ∈ idents, r.2.tick < uuidsPerTick) ∧ ((text, ident) :: idents).IsChain Resequenced) ↔
      SteadyFrom ident (clock.take calls) := by
  induction calls generalizing text ident clock idents with
  | zero =>
    cases hrun
    exact iff_of_true ⟨List.forall_mem_nil _, .singleton _⟩ trivial
  | succ calls ih =>
    cases clock with
    | nil => cases hrun
    | cons tv rest =>
      rw [identRun, preludeIdentGenerate_cons h, Option.bind_some, Option.map_eq_some_iff] at hrun
      obtain ⟨idents, hrun, rfl⟩ := hrun
      have hseq : Resequenced (text, ident) ((Uuid.ofTimestamp (getSystemTime tv +
          (ident.tock (getSystemTime tv)).tick) ident.clockseq).text,
          ident.tock (getSystemTime tv)) ↔ ident.last ≤ getSystemTime tv := by
        rw [Resequenced, clockSeqPart_text, htext]
        simp
      rw [List.forall_mem_cons, List.isChain_cons_cons, hseq, List.take_succ_cons, SteadyFrom,
        ← PreludeIdent.tock_tick_lt_iff h]
      by_cases htick : (ident.tock (getSystemTime tv)).tick < uuidsPerTick
      · have hpart : clockSeqPart (Uuid.ofTimestamp (getSystemTime tv +
            (ident.tock (getSystemTime tv)).tick) ident.clockseq).text = clockSeqPart
            (Uuid.ofTimestamp 0 (ident.tock (getSystemTime tv)).clockseq).text := by
          rw [PreludeIdent.tock_clockseq, clockSeqPart_text]
        rw [← ih htick hpart hrun]
        tauto
      · simp [htick]

theorem text_inj {t t' : ℕ} {seq seq' : UInt16} (ht : uuidTimeoffset ≤ t)
    (ht' : uuidTimeoffset ≤ t') (hlt : t < 2 ^ 60 + 11) (hlt' : t' < 2 ^ 60 + 11)
    (h : (Uuid.ofTimestamp t seq).text = (Uuid.ofTimestamp t' seq').text) : t = t' := by
  unfold Uuid.text at h
  obtain ⟨hlow, h⟩ := List.append_inj h (by simp [length_hex])
  obtain ⟨hmid, h⟩ := List.append_inj (List.cons.inj h).2 (by simp [length_hex])
  obtain ⟨hhi, -⟩ := List.append_inj (List.cons.inj h).2 (by simp [length_hex])
  simp only [Uuid.ofTimestamp] at hlow hmid hhi
  have h₁ := hex_inj (Nat.mod_lt _ (by decide)) (Nat.mod_lt _ (by decide)) hlow
  have h₂ := hex_inj (Nat.mod_lt _ (by decide)) (Nat.mod_lt _ (by decide)) hmid
  have h₃ := hex_inj (by omega) (by omega) hhi
  unfold uuidTimeoffset at ht ht'
  omega

theorem identRun_spec {calls : ℕ} {idents : List (List UInt8 × PreludeIdent)} (h : ident.Counted)
    (hs : SteadyFrom ident (clock.take calls)) (hrun : identRun calls ident clock = some idents) :
    ∃ ts : List ℕ, idents.map Prod.fst =
        ts.map (fun t => (Uuid.ofTimestamp t ident.clockseq).text) ∧
      ts.Pairwise (· < ·) ∧
      ∀ t ∈ ts, ident.last + ident.tick < t ∧ uuidTimeoffset ≤ t ∧ t < 2 ^ 60 + 11 := by
  induction calls generalizing ident clock idents with
  | zero =>
    cases hrun
    exact ⟨[], rfl, .nil, List.forall_mem_nil _⟩
  | succ calls ih =>
    cases clock with
    | nil => cases hrun
    | cons tv rest =>
      rw [identRun, preludeIdentGenerate_cons h.tick_lt, Option.bind_some,
        Option.map_eq_some_iff] at hrun
      obtain ⟨idents, hrun, rfl⟩ := hrun
      rw [List.take_succ_cons, SteadyFrom] at hs
      obtain ⟨hle, hnext, hs⟩ := hs
      have htick := (PreludeIdent.tock_tick_lt_iff h.tick_lt (getSystemTime tv)).mpr hnext
      obtain ⟨ts, htexts, hpair, hall⟩ := ih (.tock tv htick) hs hrun
      rw [PreludeIdent.tock_last] at hall
      rw [PreludeIdent.tock_clockseq] at htexts
      have hafter : ident.last + ident.tick <
          getSystemTime tv + (ident.tock (getSystemTime tv)).tick := by
        have hnow := getSystemTime_spec tv
        have hlt := h.tick_lt
        have hlast := h.last
        rw [PreludeIdent.tock_tick h.tick_lt]
        unfold uuidsPerTick uuidTimeoffset at *
        split_ifs <;> omega
      refine ⟨(getSystemTime tv + (ident.tock (getSystemTime tv)).tick) :: ts,
        by rw [List.map_cons, List.map_cons, htexts], ?_, List.forall_mem_cons.mpr ⟨⟨hafter, ?_⟩,
          fun t ht => ?_⟩⟩
      · exact List.pairwise_cons.mpr ⟨fun t ht => (hall t ht).1, hpair⟩
      · have hnow := getSystemTime_spec tv
        unfold uuidsPerTick at htick
        omega
      · have := hall t ht
        omega

theorem steadyFrom_iff (h : ident.tick < uuidsPerTick) : SteadyFrom ident clock ↔
    (ident.last :: clock.map getSystemTime).Pairwise (· ≤ ·) ∧
      ∀ now, (clock.map getSystemTime).count now +
        (if now = ident.last then ident.tick + 1 else 0) ≤ uuidsPerTick := by
  induction clock generalizing ident with
  | nil =>
    refine iff_of_true trivial ⟨List.pairwise_singleton _ _, fun now => ?_⟩
    simp only [List.map_nil, List.count_nil]
    split_ifs <;> omega
  | cons tv rest ih =>
    rw [SteadyFrom, List.map_cons, List.pairwise_cons, List.forall_mem_cons,
      ← PreludeIdent.tock_tick_lt_iff h]
    by_cases htick : (ident.tock (getSystemTime tv)).tick < uuidsPerTick
    · rw [ih htick, PreludeIdent.tock_last, PreludeIdent.tock_tick h]
      simp only [List.count_cons, beq_iff_eq]
      constructor
      · rintro ⟨hle, -, hpair, hcount⟩
        have hafter (t : ℕ) (ht : t ∈ rest.map getSystemTime) : getSystemTime tv ≤ t :=
          List.rel_of_pairwise_cons hpair ht
        refine ⟨⟨⟨hle, fun t ht => hle.trans (hafter t ht)⟩, hpair⟩, fun now => ?_⟩
        have hnow := hcount now
        by_cases hlast : now = ident.last
        · by_cases hsame : getSystemTime tv = ident.last
          · simp only [hsame, hlast, if_true] at hnow ⊢
            omega
          · -- the microsecond before has no reading any more
            have hzero : (rest.map getSystemTime).count now = 0 := by
              refine List.count_eq_zero_of_not_mem fun hmem => hsame ?_
              have := hafter now hmem
              omega
            rw [if_neg (hlast ▸ hsame), if_pos hlast, hzero]
            omega
        · rw [if_neg hlast]
          split_ifs at hnow ⊢ <;> omega
      · rintro ⟨⟨⟨hle, -⟩, hpair⟩, hcount⟩
        refine ⟨hle, by rwa [PreludeIdent.tock_tick h] at htick, hpair, fun now => ?_⟩
        have hnow := hcount now
        split_ifs at hnow ⊢ <;> omega
    · have hused := mt (PreludeIdent.tock_tick_lt_iff h _).mpr htick
      push Not at hused
      refine iff_of_false (fun hs => htick hs.2.1) fun hs => ?_
      have hnow := hs.2 (getSystemTime tv)
      rw [List.count_cons_self, if_pos hused.1] at hnow
      omega

end

/-- What a new object generates is kept apart just if the clock is steady. -/
theorem idents_distinct_iff {clockseq : UInt16} {clock : List ClockReading} {calls : ℕ}
    {idents : List (List UInt8 × PreludeIdent)}
    (hrun : identRun calls (preludeIdentNew clockseq) clock = some idents) :
    IdentsApart idents ↔ Steady (clock.take calls) := by
  have htick : (preludeIdentNew clockseq).tick < uuidsPerTick := Nat.zero_lt_succ 9
  have hchain := identRun_iff htick rfl hrun
  have hfirst : ∀ r ∈ idents.head?, Resequenced
      ((Uuid.ofTimestamp 0 (preludeIdentNew clockseq).clockseq).text, preludeIdentNew clockseq) r :=
    fun r _ h => absurd h (Nat.not_lt_zero _)
  rw [List.isChain_cons, and_iff_right hfirst] at hchain
  have hsteady : SteadyFrom (preludeIdentNew clockseq) (clock.take calls) ↔
      Steady (clock.take calls) := by
    rw [steadyFrom_iff htick, List.pairwise_cons]
    constructor
    · rintro ⟨⟨-, hpair⟩, hcount⟩
      exact ⟨hpair, fun tv _ => (Nat.le_add_right _ _).trans (hcount _)⟩
    · rintro ⟨hpair, hcount⟩
      refine ⟨⟨fun t _ => Nat.zero_le t, hpair⟩, fun now => ?_⟩
      by_cases hmem : now ∈ (clock.take calls).map getSystemTime
      · obtain ⟨tv, htv, rfl⟩ := List.mem_map.mp hmem
        have hpos : getSystemTime tv ≠ (preludeIdentNew clockseq).last := fun hzero => by
          have := (getSystemTime_spec tv).1
          rw [hzero] at this
          exact absurd this (Nat.not_le_of_lt (by decide : 0 < uuidTimeoffset))
        rw [if_neg hpos]
        exact hcount tv htv
      · rw [List.count_eq_zero_of_not_mem hmem, Nat.zero_add]
        split_ifs
        · exact htick
        · exact Nat.zero_le _
  have htext := identRun_text hrun
  rw [← hsteady, ← hchain]
  constructor
  · rintro ⟨-, hwithin, hseq⟩
    refine ⟨fun r hr => ?_, hseq⟩
    obtain ⟨t, seq, hle, hlt, heq⟩ := hwithin r hr
    obtain ⟨heq', htick', hlast, hbound⟩ := htext r hr
    unfold uuidsPerTick at htick' ⊢
    have := text_inj (by omega) (by omega) (by omega) (by omega) (heq'.symm.trans heq)
    omega
  · rintro ⟨hwithin, hseq⟩
    refine ⟨?_, fun r hr => ⟨_, _, Nat.le_add_right _ _, Nat.add_lt_add_left (hwithin r hr) _,
      (htext r hr).1⟩, hseq⟩
    obtain ⟨ts, htexts, hpair, hall⟩ :=
      identRun_spec ⟨htick, .inl ⟨rfl, rfl⟩⟩ (hchain.mp ⟨hwithin, hseq⟩) hrun
    rw [htexts, List.Nodup, List.pairwise_map]
    refine hpair.imp_of_mem fun ht ht' hlt heq => ?_
    have := text_inj (hall _ ht).2.1 (hall _ ht').2.1 (hall _ ht).2.2 (hall _ ht').2.2 heq
    omega

def firstReading : ClockReading := ⟨0, 0, by decide⟩
def secondReading : ClockReading := ⟨0, 1, by decide⟩

/-- Ten identifiers of one microsecond and two of the next. -/
theorem idents_distinct_twelve : ∃ idents, identRun 12 (preludeIdentNew 0)
    (List.replicate 10 firstReading ++ [secondReading, secondReading]) = some idents ∧
      IdentsApart idents := by
  have hrun : (identRun 12 (preludeIdentNew 0)
      (List.replicate 10 firstReading ++ [secondReading, secondReading])).isSome := by
    decide +kernel
  obtain ⟨idents, hidents⟩ := Option.isSome_iff_exists.mp hrun
  exact ⟨idents, hidents, (idents_distinct_iff hidents).mpr ⟨by decide, by decide⟩⟩

/-- Eleven identifiers of one microsecond reach into the next. -/
theorem idents_repeat : ∃ idents ∈ identRun 12 (preludeIdentNew 0)
    (List.replicate 11 firstReading ++ [secondReading]), ¬ (idents.map Prod.fst).Nodup := by
  decide +kernel

end LibPrelude
