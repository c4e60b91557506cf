import LibPrelude.Ident
import LibPrelude.Idmef.NtpTables
import LibPrelude.Idmef.TimeOrder
import LibPrelude.Idmef.ValueRead
import Mathlib.Tactic.Linarith

/-! # NTP timestamps

A timestamp is the number of seconds since 1900 and a fraction of a second in units of
2^-32, of which twenty bits are kept. A time is written rounded to the nearest of these
fractions. What is subtracted when it is read is half a unit, and then the unit is
dropped, so that the fraction read is the next lower one.
-/

namespace LibPrelude

def tsMask : UInt32 := 0xfffff000
def tsRoundbit : UInt32 := 0x800
def jan1970 : UInt32 := 0x83aa7e80

structure LFp where
  ui : UInt32
  uf : UInt32

namespace NtpTables

variable (T : NtpTables)

def tvuToTsf (usec : ℕ) : UInt32 :=
  .ofNat (T.ustotslo (usec % 2 ^ 8) + T.ustotsmid (usec / 2 ^ 8 % 2 ^ 8) +
    T.ustotshi (usec / 2 ^ 16 % 2 ^ 4))

def tsfToTvu (tsf : ℕ) : ℕ :=
  (T.tstoushi (tsf / 2 ^ 24 % 2 ^ 8) + T.tstousmid (tsf / 2 ^ 16 % 2 ^ 8) +
    T.tstouslo (tsf / 2 ^ 9 % 2 ^ 7) + 4) / 2 ^ 3

/-- The seconds, which have 64 bits, and the microseconds of a timestamp. -/
def tsToTv (ts : LFp) : ℕ × ℕ :=
  let usec := T.tsfToTvu ts.uf.toNat
  if usec = 1000000 then (ts.ui.toNat + 1, 0) else (ts.ui.toNat, usec)

/-- Neither number is negative, as both were unsigned. -/
def tvToTs (sec usec : UInt32) : LFp := ⟨sec, T.tvuToTsf usec.toNat⟩

def idmefTimeToNtpstamp (time : IdmefTime) : List UInt8 :=
  let ts := T.tvToTs time.sec time.usec
  let ui := ts.ui + jan1970
  let uf := (ts.uf + tsRoundbit) &&& tsMask
  ascii "0x" ++ hex 8 ui.toNat ++ ascii ".0x" ++ hex 8 uf.toNat

end NtpTables

/-- The sign of a number, and what follows it. -/
def scanSign : List UInt8 → Bool × List UInt8
  | 45 :: bs => (true, bs)
  | 43 :: bs => (false, bs)
  | bs => (false, bs)

def skipHexPrefix : List UInt8 → List UInt8
  | 48 :: x :: bs => if x = 120 ∨ x = 88 then bs else 48 :: x :: bs
  | bs => bs

/-- The conversion `%x`: the number of 32 bits that a text starts with, and the rest. -/
def scanHex (buf : List UInt8) : Option (UInt32 × List UInt8) :=
  let (neg, bs) := scanSign (buf.dropWhile isSpace)
  let bs := skipHexPrefix bs
  let digits := bs.takeWhile (digitOf · < 16)
  if digits = [] then none
  else
    let n := UInt32.ofNat (min (numberIn 16 digits) (2 ^ 64 - 1))
    some (if neg then -n else n, bs.dropWhile (digitOf · < 16))

def scanNtpstamp (buf : List UInt8) : Option LFp := do
  let (ui, rest) ← scanHex buf
  match rest with
  | 46 :: rest =>
    let (uf, _) ← scanHex rest
    return ⟨ui, uf⟩
  | _ => none

def NtpTables.idmefTimeSetFromNtpstamp (T : NtpTables) (buf : List UInt8) : Option IdmefTime := do
  let ts ← scanNtpstamp buf
  let ui := ts.ui - jan1970
  let uf := (ts.uf - tsRoundbit) &&& tsMask
  let (sec, usec) := T.tsToTv ⟨ui, uf⟩
  return ⟨.ofNat sec, .ofNat usec, 0⟩

/-- At most two microseconds lie between two times, the seconds being counted in 32 bits. -/
def IdmefTime.Near (s t : IdmefTime) : Prop :=
  ((t.instant : ℤ) - s.instant + 2) % (2 ^ 32 * 10 ^ 6) ≤ 4

section

variable {T : NtpTables} {n : ℕ} {rest : List UInt8}

theorem digitOf_hexDigit {d : ℕ} (h : d < 16) : digitOf (hexDigit d) = d := by
  have hall : (List.range 16).all fun d => digitOf (hexDigit d) = d := by decide
  simpa using List.all_eq_true.mp hall d (List.mem_range.mpr h)

theorem hex_all (width n : ℕ) : (hex width n).all (digitOf · < 16) := by
  induction width generalizing n with
  | zero => rfl
  | succ width ih =>
    have hmod : n % 16 < 16 := Nat.mod_lt _ (by decide)
    simp only [hex, List.all_append, ih, List.all_cons, List.all_nil, digitOf_hexDigit hmod]
    simpa using hmod

theorem numberIn_append_singleton (base : ℕ) (bs : List UInt8) (b : UInt8) :
    numberIn base (bs ++ [b]) = base * numberIn base bs + digitOf b := by
  simp [numberIn]

theorem numberIn_hex (width n : ℕ) : numberIn 16 (hex width n) = n % 16 ^ width := by
  induction width generalizing n with
  | zero => simp [hex, numberIn, Nat.mod_one]
  | succ width ih =>
    have hmod : n % 16 < 16 := Nat.mod_lt _ (by decide)
    rw [hex, numberIn_append_singleton, ih, digitOf_hexDigit hmod, pow_succ', Nat.mod_mul]
    omega

theorem scanHex_hex (n : UInt32) (hrest : ∀ b ∈ rest.head?, ¬ digitOf b < 16) :
    scanHex (ascii "0x" ++ hex 8 n.toNat ++ rest) = some (n, rest) := by
  have hx : ascii "0x" = [48, 120] := rfl
  have hall : ∀ b ∈ hex 8 n.toNat, (decide (digitOf b < 16)) = true := by
    simpa using hex_all 8 n.toNat
  have hne : hex 8 n.toNat ≠ [] := by
    intro h
    have := length_hex 8 n.toNat
    rw [h] at this
    cases this
  have htake : (hex 8 n.toNat ++ rest).takeWhile (digitOf · < 16) = hex 8 n.toNat := by
    rw [List.takeWhile_append_of_pos hall]
    rcases rest with _ | ⟨b, rest⟩
    · simp
    · rw [List.takeWhile_cons_of_neg (by simpa using hrest b rfl), List.append_nil]
  have hdrop : (hex 8 n.toNat ++ rest).dropWhile (digitOf · < 16) = rest := by
    rw [List.dropWhile_append_of_pos hall]
    rcases rest with _ | ⟨b, rest⟩
    · rfl
    · exact List.dropWhile_cons_of_neg (by simpa using hrest b rfl)
  have hsize : min (numberIn 16 (hex 8 n.toNat)) (2 ^ 64 - 1) = n.toNat := by
    have hn := n.toNat_lt
    rw [numberIn_hex]
    omega
  have hprefix : skipHexPrefix (scanSign ((ascii "0x" ++ hex 8 n.toNat ++ rest).dropWhile
      isSpace)).2 = hex 8 n.toNat ++ rest := rfl
  have hsign : (scanSign ((ascii "0x" ++ hex 8 n.toNat ++ rest).dropWhile isSpace)).1 = false := rfl
  simp only [scanHex, hprefix, hsign, htake, hdrop, hne, if_false, hsize, UInt32.ofNat_toNat,
    Bool.false_eq_true]

theorem testBit_mask (i : ℕ) : Nat.testBit 0xfffff000 i = (decide (12 ≤ i) && decide (i < 32)) := by
  rw [show 0xfffff000 = 2 ^ 12 * (2 ^ 20 - 1) by decide, Nat.testBit_two_pow_mul,
    Nat.testBit_two_pow_sub_one]
  by_cases h : 12 ≤ i
  · simp [h]
    omega
  · simp [h]

theorem toNat_mask (x : UInt32) : (x &&& tsMask).toNat = x.toNat / 4096 * 4096 := by
  refine Nat.eq_of_testBit_eq fun i => ?_
  rw [UInt32.toNat_and, Nat.testBit_and, show tsMask.toNat = 0xfffff000 from rfl, testBit_mask,
    Nat.mul_comm, show 4096 = 2 ^ 12 from rfl, Nat.testBit_two_pow_mul, Nat.testBit_div_two_pow]
  by_cases h : 12 ≤ i
  · by_cases hi : i < 32
    · simp [h, hi]
    · have hlt : x.toNat < 2 ^ i :=
        x.toNat_lt.trans_le (Nat.pow_le_pow_right (by decide) (Nat.le_of_not_lt hi))
      simp [h, hi, Nat.testBit_lt_two_pow hlt]
  · simp [h]

/-- The fraction of less than a second is less than 103 units too small, and not three too large. -/
theorem tvuToTsf_bounds (T : NtpTables) {usec : ℕ} (h : usec < 10 ^ 6) :
    usec * 2 ^ 32 ≤ ((T.tvuToTsf usec).toNat + 103) * 10 ^ 6 ∧
      (T.tvuToTsf usec).toNat * 10 ^ 6 ≤ usec * 2 ^ 32 + 3 * 10 ^ 6 := by
  have hlo := T.lo (usec % 2 ^ 8) (by omega)
  have hmid := T.mid (usec / 2 ^ 8 % 2 ^ 8) (by omega)
  have hhi := T.hi (usec / 2 ^ 16 % 2 ^ 4) (by omega)
  have hsum : usec % 2 ^ 8 + usec / 2 ^ 8 % 2 ^ 8 * 2 ^ 8 + usec / 2 ^ 16 % 2 ^ 4 * 2 ^ 16 =
      usec := by
    have h₁ : usec / 2 ^ 8 / 2 ^ 8 = usec / 2 ^ 16 := Nat.div_div_eq_div_mul _ _ _
    omega
  rw [NtpTables.tvuToTsf, UInt32.toNat_ofNat']
  generalize T.ustotslo (usec % 2 ^ 8) = x at hlo ⊢
  generalize T.ustotsmid (usec / 2 ^ 8 % 2 ^ 8) = y at hmid ⊢
  generalize T.ustotshi (usec / 2 ^ 16 % 2 ^ 4) = z at hhi ⊢
  generalize usec % 2 ^ 8 = a at hlo hsum
  generalize usec / 2 ^ 8 % 2 ^ 8 = b at hmid hsum
  generalize usec / 2 ^ 16 % 2 ^ 4 = c at hhi hsum
  have hle : (x + y + z) * 10 ^ 6 ≤ usec * 2 ^ 32 + 3 * 10 ^ 6 := by
    norm_num at hlo hmid hhi hsum ⊢
    linarith
  rw [Nat.mod_eq_of_lt (by omega)]
  refine ⟨?_, hle⟩
  norm_num at hlo hmid hhi hsum ⊢
  linarith

/-- The microseconds of a fraction of which the low bits are zero, to three eighths and half a
microsecond. -/
theorem tsfToTvu_bounds (T : NtpTables) {tsf : ℕ} (h : tsf < 2 ^ 32) (hlow : tsf % 2 ^ 12 = 0) :
    tsf * 10 ^ 6 < T.tsfToTvu tsf * 2 ^ 32 + 7 * 2 ^ 29 ∧
      T.tsfToTvu tsf * 2 ^ 32 ≤ tsf * 10 ^ 6 + 7 * 2 ^ 29 := by
  have hhi := T.fracHi (tsf / 2 ^ 24 % 2 ^ 8) (by omega)
  have hmid := T.fracMid (tsf / 2 ^ 16 % 2 ^ 8) (by omega)
  have hlo := T.fracLo (tsf / 2 ^ 9 % 2 ^ 7) (by omega)
  have hsum : tsf / 2 ^ 24 % 2 ^ 8 * 2 ^ 24 + tsf / 2 ^ 16 % 2 ^ 8 * 2 ^ 16 +
      tsf / 2 ^ 9 % 2 ^ 7 * 2 ^ 9 = tsf := by
    have h₁ : tsf / 2 ^ 16 / 2 ^ 8 = tsf / 2 ^ 24 := Nat.div_div_eq_div_mul _ _ _
    have h₂ : tsf / 2 ^ 9 / 2 ^ 7 = tsf / 2 ^ 16 := Nat.div_div_eq_div_mul _ _ _
    omega
  rw [NtpTables.tsfToTvu]
  generalize T.tstoushi (tsf / 2 ^ 24 % 2 ^ 8) = x at hhi ⊢
  generalize T.tstousmid (tsf / 2 ^ 16 % 2 ^ 8) = y at hmid ⊢
  generalize T.tstouslo (tsf / 2 ^ 9 % 2 ^ 7) = z at hlo ⊢
  generalize tsf / 2 ^ 24 % 2 ^ 8 = a at hhi hsum
  generalize tsf / 2 ^ 16 % 2 ^ 8 = b at hmid hsum
  generalize tsf / 2 ^ 9 % 2 ^ 7 = c at hlo hsum
  omega

/-- The fraction that is read when one was written. -/
def rereadFraction (uf : UInt32) : UInt32 := ((uf + tsRoundbit) &&& tsMask) - tsRoundbit &&& tsMask

theorem scanNtpstamp_text (T : NtpTables) (t : IdmefTime) :
    scanNtpstamp (T.idmefTimeToNtpstamp t) =
      some ⟨t.sec + jan1970, (T.tvuToTsf t.usec.toNat + tsRoundbit) &&& tsMask⟩ := by
  have hpoint : ascii ".0x" = 46 :: ascii "0x" := rfl
  simp only [NtpTables.idmefTimeToNtpstamp, NtpTables.tvToTs, hpoint]
  generalize t.sec + jan1970 = ui
  generalize (T.tvuToTsf t.usec.toNat + tsRoundbit) &&& tsMask = uf
  have hfirst : scanHex (ascii "0x" ++ hex 8 ui.toNat ++ 46 :: (ascii "0x" ++ hex 8 uf.toNat)) =
      some (ui, 46 :: (ascii "0x" ++ hex 8 uf.toNat)) :=
    scanHex_hex ui (by simp [digitOf, isDigit])
  have hsecond : scanHex (ascii "0x" ++ hex 8 uf.toNat) = some (uf, []) := by
    have h := @scanHex_hex [] uf (by simp)
    rwa [List.append_nil] at h
  have htext : ascii "0x" ++ hex 8 ui.toNat ++ 46 :: ascii "0x" ++ hex 8 uf.toNat =
      ascii "0x" ++ hex 8 ui.toNat ++ 46 :: (ascii "0x" ++ hex 8 uf.toNat) := by
    simp
  rw [htext, scanNtpstamp, hfirst]
  simp only [Option.bind_eq_bind, Option.bind_some, hsecond]
  rfl

/-- What is read back: the seconds, and the microseconds of the fraction below. -/
theorem idmefTimeSetFromNtpstamp_text (T : NtpTables) (t : IdmefTime)
    (h : T.tsfToTvu (rereadFraction (T.tvuToTsf t.usec.toNat)).toNat ≠ 1000000) :
    T.idmefTimeSetFromNtpstamp (T.idmefTimeToNtpstamp t) =
      some ⟨t.sec, .ofNat (T.tsfToTvu (rereadFraction (T.tvuToTsf t.usec.toNat)).toNat), 0⟩ := by
  rw [NtpTables.idmefTimeSetFromNtpstamp, scanNtpstamp_text]
  simp only [Option.bind_eq_bind, Option.bind_some, UInt32.add_sub_cancel, NtpTables.tsToTv]
  rw [rereadFraction] at h
  rw [if_neg h, rereadFraction]
  simp

theorem toNat_rereadFraction {uf : UInt32} (h : uf.toNat + 2048 < 2 ^ 32) :
    (rereadFraction uf).toNat =
      if uf.toNat < 2048 then 2 ^ 32 - 4096 else (uf.toNat + 2048) / 4096 * 4096 - 4096 := by
  have hround : tsRoundbit.toNat = 2048 := rfl
  rw [rereadFraction, toNat_mask, UInt32.toNat_sub, toNat_mask, UInt32.toNat_add, hround,
    Nat.mod_eq_of_lt h]
  split_ifs <;> omega

end

/-- The microseconds that are read when `usec` of them were written: at the beginning of a second
those of its end, and at most two fewer elsewhere. -/
theorem tsfToTvu_rereadFraction (T : NtpTables) {usec : ℕ} (h : usec < 10 ^ 6) :
    (usec = 0 → T.tsfToTvu (rereadFraction (T.tvuToTsf usec)).toNat = 999999) ∧
      (usec ≠ 0 → T.tsfToTvu (rereadFraction (T.tvuToTsf usec)).toNat ≤ usec ∧
        usec ≤ T.tsfToTvu (rereadFraction (T.tvuToTsf usec)).toNat + 2) := by
  obtain ⟨hlow, hhigh⟩ := tvuToTsf_bounds T h
  have hfrac := @toNat_rereadFraction (T.tvuToTsf usec) (by omega)
  have hlt := (rereadFraction (T.tvuToTsf usec)).toNat_lt
  have hiff : (T.tvuToTsf usec).toNat < 2048 ↔ usec = 0 := by omega
  constructor
  · intro hzero
    rw [if_pos (hiff.mpr hzero)] at hfrac
    obtain ⟨hbelow, habove⟩ := tsfToTvu_bounds T hlt (by omega)
    omega
  · intro hne
    rw [if_neg (mt hiff.mp hne)] at hfrac
    obtain ⟨hbelow, habove⟩ := tsfToTvu_bounds T hlt (by omega)
    omega

/-- A timestamp that was written is read as the time it was written of, to two microseconds, just
if the time is not at the beginning of a second. -/
theorem ntpstamp_round_trip_iff (T : NtpTables) (t : IdmefTime) (h : t.usec.toNat < 10 ^ 6) :
    (∃ t', T.idmefTimeSetFromNtpstamp (T.idmefTimeToNtpstamp t) = some t' ∧ t.Near t') ↔
      t.usec ≠ 0 := by
  obtain ⟨hzero, hne⟩ := tsfToTvu_rereadFraction T h
  have hiff : t.usec ≠ 0 ↔ t.usec.toNat ≠ 0 := by
    rw [ne_eq, ne_eq, ← UInt32.toNat_inj]
    rfl
  have hread := idmefTimeSetFromNtpstamp_text T t
  generalize T.tsfToTvu (rereadFraction (T.tvuToTsf t.usec.toNat)).toNat = v at hzero hne hread
  have hv32 : (UInt32.ofNat v).toNat = v := by
    rw [UInt32.toNat_ofNat', Nat.mod_eq_of_lt (by omega)]
  rw [hread (by omega), hiff]
  simp only [Option.some.injEq, exists_eq_left', IdmefTime.Near, IdmefTime.instant, hv32]
  by_cases h0 : t.usec.toNat = 0
  · simp only [h0, hzero h0]
    omega
  · obtain ⟨hle, hge⟩ := hne h0
    omega

theorem ntpstamp_round_trip_one :
    ∃ t', ntpTables.idmefTimeSetFromNtpstamp (ntpTables.idmefTimeToNtpstamp ⟨0, 1, 0⟩) = some t' ∧
      IdmefTime.Near ⟨0, 1, 0⟩ t' :=
  (ntpstamp_round_trip_iff ntpTables ⟨0, 1, 0⟩ (by decide)).mpr (by decide)

/-- A time at the beginning of a second is read as one at its end. -/
theorem ntpstamp_round_trip_zero : ¬ ∃ t',
    ntpTables.idmefTimeSetFromNtpstamp (ntpTables.idmefTimeToNtpstamp ⟨1, 0, 0⟩) = some t' ∧
      IdmefTime.Near ⟨1, 0, 0⟩ t' := by
  have hzero : (0 : UInt32).toNat = 0 := rfl
  have hvalue := (tsfToTvu_rereadFraction ntpTables (by decide)).1 rfl
  have hread := idmefTimeSetFromNtpstamp_text ntpTables ⟨1, 0, 0⟩
  rw [hzero, hvalue] at hread
  rw [hread (by decide)]
  simp only [Option.some.injEq, exists_eq_left', IdmefTime.Near]
  decide

end LibPrelude
