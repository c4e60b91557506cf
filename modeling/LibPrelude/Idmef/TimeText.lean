import LibPrelude.General.Decimal
import LibPrelude.Idmef.Calendar
import LibPrelude.Idmef.TimeOrder

/-! # Times as text

A time is printed as its date and clock at its offset from Greenwich, with six digits of
the second and the offset. The offset is split into hours and minutes of its sign, and
the sign of the hours is the only one that is read.
-/

namespace LibPrelude

/-- What `%.nu` prints. -/
def printUnsigned (prec n : ℕ) : List UInt8 := decimals (max prec (decimalWidth 20 n)) n

def printInt (plus : Bool) (prec : ℕ) (v : ℤ) : List UInt8 :=
  (if v < 0 then [45] else if plus then [43] else []) ++ printUnsigned prec v.natAbs

/-- The sum of the seconds and the offset wraps. -/
def idmefTimeToString (time : IdmefTime) : List UInt8 :=
  let utc := gmtime (time.sec + time.gmtOffset.toUInt32)
  let hourOff := time.gmtOffset.toInt.tdiv 3600
  let minOff := (time.gmtOffset.toInt.tmod 3600).tdiv 60
  printInt false 1 (utc.year + 1900) ++ (45 :: printInt false 2 (utc.mon + 1)) ++
    (45 :: printInt false 2 utc.mday) ++ (84 :: printInt false 2 utc.hour) ++
    (58 :: printInt false 2 utc.min) ++ (58 :: printInt false 2 utc.sec) ++
    (46 :: printUnsigned 6 time.usec.toNat) ++ printInt true 2 hourOff ++
    (58 :: printInt false 2 minOff)

/-- The loop of `get_number` behind its first test. -/
def numberLoop (hi : ℕ) : ℕ → ℕ → List UInt8 → ℕ × List UInt8
  | n + 1, val, c :: rp =>
    let val := val * 10 + (c.toNat - 48)
    if 0 < n ∧ val * 10 ≤ hi ∧ (rp.head?.map isDigit).getD false then numberLoop hi n val rp
    else (val, rp)
  | _, val, rp => (val, rp)

/-- A number of at most `n` digits in a range. -/
def getNumber (lo hi n : ℕ) (rp : List UInt8) : Option (ℕ × List UInt8) :=
  let rp := rp.dropWhile (· = 32)
  if ¬ (rp.head?.map isDigit).getD false then none
  else
    let (val, rp) := numberLoop hi n 0 rp
    if val < lo ∨ hi < val then none else some (val, rp)

def matchByte (b : UInt8) : List UInt8 → Option (List UInt8)
  | c :: rp => if c = b then some rp else none
  | [] => none

/-- The conversion `%Y-%m-%d` of `strptime`. -/
def strptimeYmd (tm : Tm) (buf : List UInt8) : Option (Tm × List UInt8) := do
  let (year, rp) ← getNumber 0 9999 4 buf
  let rp ← matchByte 45 rp
  let (mon, rp) ← getNumber 1 12 2 rp
  let rp ← matchByte 45 rp
  let (mday, rp) ← getNumber 1 31 2 rp
  return ({ tm with year := year - 1900, mon := mon - 1, mday := mday }, rp)

def strptimeHms (tm : Tm) (buf : List UInt8) : Option (Tm × List UInt8) := do
  let (hour, rp) ← getNumber 0 23 2 buf
  let rp ← matchByte 58 rp
  let (min, rp) ← getNumber 0 59 2 rp
  let rp ← matchByte 58 rp
  let (sec, rp) ← getNumber 0 61 2 rp
  return ({ tm with hour := hour, min := min, sec := sec }, rp)

def parseTimeYmd (tm : Tm) (buf : List UInt8) : Option (Tm × List UInt8) := do
  let (tm, ptr) ← strptimeYmd tm buf
  match ptr.dropWhile isSpace with
  | 84 :: ptr => return (tm, ptr)
  | ptr => return (tm, ptr)

/-- The number that a text begins with, in 64 bits, and the number of bytes read. -/
def strtoulPrefix (str : List UInt8) : ℕ × ℕ :=
  let blanks := str.takeWhile isSpace
  let (neg, signs, bs) := splitSign (str.dropWhile isSpace)
  let digits := bs.takeWhile isDigit
  if digits = [] then (0, 0)
  else
    let n := min (digitsValue digits) (2 ^ 64 - 1)
    (if neg then (2 ^ 64 - n) % 2 ^ 64 else n, blanks.length + signs + digits.length)

/-- The microseconds of a fraction; a negative `int` is an error. -/
def digit2usec (n : UInt32) (digitCount : ℕ) : Option UInt32 :=
  if 6 < digitCount then none
  else
    let n := n * 10 ^ (6 - digitCount)
    if n < 0x80000000 then some n else none

def parseTimeHmsu (tm : Tm) (buf : List UInt8) : Option (Tm × UInt32 × List UInt8) := do
  let (tm, buf) ← strptimeHms tm buf
  match buf with
  | c :: rest =>
    if c = 46 ∨ c = 44 then
      let (fraction, read) := strtoulPrefix rest
      if read = 0 then none
      else
        let usec ← digit2usec (.ofNat fraction) read
        return (tm, usec, rest.drop read)
    else return (tm, 0, c :: rest)
  | [] => return (tm, 0, [])

/-- The conversion `%nu` of `sscanf`. -/
def scanUnsigned (width : ℕ) (str : List UInt8) : Option (UInt32 × List UInt8) :=
  let str := str.dropWhile isSpace
  let (neg, signs, field) := splitSign (str.take width)
  let digits := field.takeWhile isDigit
  if digits = [] then none
  else
    let n := UInt32.ofNat (digitsValue digits)
    some (if neg then -n else n, str.drop (signs + digits.length))

/-- An `int` from which an unsigned number is subtracted. -/
def intSub (a : ℤ) (b : UInt32) : ℤ := Int.bmod (a - b.toNat) (2 ^ 32)

def intAdd (a : ℤ) (b : UInt32) : ℤ := Int.bmod (a + b.toNat) (2 ^ 32)

def parseTimeGmt (tm : Tm) (gmtoff : Int32) : List UInt8 → Option (Tm × Int32)
  | [] => none
  | 90 :: _ => some (tm, gmtoff)
  | sign :: buf => do
    let (offsetHour, rest) ← scanUnsigned 2 buf
    let rest ← matchByte 58 rest
    let (offsetMin, _) ← scanUnsigned 2 rest
    if sign = 43 then
      return ({ tm with min := intSub tm.min offsetMin, hour := intSub tm.hour offsetHour },
        (offsetHour * 3600 + offsetMin * 60).toInt32)
    else if sign = 45 then
      return ({ tm with min := intAdd tm.min offsetMin, hour := intAdd tm.hour offsetHour },
        (-(offsetHour * 3600 + offsetMin * 60)).toInt32)
    else none

def storedSec (t : ℤ) : UInt32 := .ofNat (t % 2 ^ 32).toNat

/-- What the C library knows of the local time: the offset of a time, and its seconds. -/
structure LocalTime where
  gmtOffsetFromTm : Tm → Int32
  mktime : Tm → ℤ

def idmefTimeSetFromString (L : LocalTime) (buf : List UInt8) : Option IdmefTime := do
  let (tm, ptr) ← parseTimeYmd ⟨0, 0, 0, 0, 0, 0, 0, 0⟩ buf
  if ptr = [] then return ⟨storedSec (timegm tm), 0, 0⟩
  let (tm, usec, ptr) ← parseTimeHmsu tm ptr
  if ptr = [] then return ⟨storedSec (L.mktime tm), usec, L.gmtOffsetFromTm tm⟩
  let (tm, gmtOffset) ← parseTimeGmt tm 0 ptr
  return ⟨storedSec (timegm tm), usec, gmtOffset⟩

section

variable {w n lo hi : ℕ} {rest : List UInt8}

theorem isDigit_decimals {b : UInt8} (hb : b ∈ decimals w n) : isDigit b = true := by
  have h := decimals_digit hb
  simpa [isDigit, UInt8.le_iff_toNat_le] using h

theorem digit_not_space {b : UInt8} (hb : b ∈ decimals w n) : isSpace b = false :=
  not_isSpace_of_isDigit (isDigit_decimals hb)

theorem numberLoop_decimals (hw : 1 ≤ w) (hn : n ≤ hi) :
    numberLoop hi w (n / 10 ^ w) (decimals w n ++ rest) = (n, rest) := by
  induction w with
  | zero => omega
  | succ w ih =>
    have hdigit := toNat_digit (n / 10 ^ w)
    have hval : n / 10 ^ (w + 1) * 10 + ((UInt8.ofNat (48 + n / 10 ^ w % 10)).toNat - 48) =
        n / 10 ^ w := by
      rw [hdigit, pow_succ, ← Nat.div_div_eq_div_mul]
      omega
    rw [decimals_succ, List.cons_append, numberLoop]
    simp only [hval]
    cases w with
    | zero => simp [decimals]
    | succ w =>
      have hle : n / 10 ^ (w + 1) * 10 ≤ hi := by
        have h := Nat.div_mul_le_self n (10 ^ (w + 1))
        have hten : 10 ≤ 10 ^ (w + 1) := Nat.le_self_pow (by omega) 10
        calc n / 10 ^ (w + 1) * 10 ≤ n / 10 ^ (w + 1) * 10 ^ (w + 1) := Nat.mul_le_mul_left _ hten
          _ ≤ n := h
          _ ≤ hi := hn
      have hhead : ((decimals (w + 1) n ++ rest).head?.map isDigit).getD false = true := by
        rw [decimals_succ]
        exact isDigit_decimals (w := w + 1) (by rw [decimals_succ]; exact List.mem_cons_self)
      rw [if_pos ⟨by omega, hle, hhead⟩]
      exact ih (by omega)

theorem getNumber_decimals (hw : 1 ≤ w) (hlt : n < 10 ^ w) (hlo : lo ≤ n) (hhi : n ≤ hi) :
    getNumber lo hi w (decimals w n ++ rest) = some (n, rest) := by
  have hloop := @numberLoop_decimals w n hi rest hw hhi
  rw [Nat.div_eq_of_lt hlt] at hloop
  obtain ⟨w, rfl⟩ : ∃ k, w = k + 1 := ⟨w - 1, by omega⟩
  have hmem : UInt8.ofNat (48 + n / 10 ^ w % 10) ∈ decimals (w + 1) n := by
    rw [decimals_succ]
    exact List.mem_cons_self
  have hne : UInt8.ofNat (48 + n / 10 ^ w % 10) ≠ 32 := by
    intro h
    have := decimals_digit hmem
    rw [h] at this
    exact absurd this (by decide)
  have hdrop : (decimals (w + 1) n ++ rest).dropWhile (· = 32) = decimals (w + 1) n ++ rest := by
    rw [decimals_succ, List.cons_append]
    exact List.dropWhile_cons_of_neg (by simpa using hne)
  have hhead : ((decimals (w + 1) n ++ rest).head?.map isDigit).getD false = true := by
    rw [decimals_succ] at hmem ⊢
    exact isDigit_decimals (w := w + 1) (by rw [decimals_succ]; exact List.mem_cons_self)
  rw [getNumber]
  simp only [hdrop, hhead, hloop]
  rw [if_neg (by simp), if_neg (by omega)]

theorem printUnsigned_eq (hw : 1 ≤ w) (hlt : n < 10 ^ w) : printUnsigned w n = decimals w n := by
  rw [printUnsigned, max_eq_left (decimalWidth_le hw hlt 20)]

theorem printInt_two {v : ℤ} (hv : 0 ≤ v) (hlt : v < 100) :
    printInt false 2 v = decimals 2 v.toNat := by
  rw [printInt, if_neg (by omega), if_neg (by decide), List.nil_append,
    printUnsigned_eq (by decide) (by omega), show v.natAbs = v.toNat by omega]

theorem printInt_four {v : ℤ} (hv : 1000 ≤ v) (hlt : v < 10000) :
    printInt false 1 v = decimals 4 v.toNat := by
  have hwidth : decimalWidth 20 v.natAbs = 4 := by
    have h₁ := @decimalWidth_le 4 (by decide) v.natAbs (by omega) 20
    have h₂ := @lt_decimalWidth 3 v.natAbs 20 (by omega) (by decide)
    omega
  rw [printInt, if_neg (by omega), if_neg (by decide), List.nil_append, printUnsigned, hwidth]
  rw [show v.natAbs = v.toNat by omega]
  rfl

theorem digitsValue_decimals (w n : ℕ) : digitsValue (decimals w n) = n % 10 ^ w := by
  induction w generalizing n with
  | zero => simp [decimals, digitsValue, Nat.mod_one]
  | succ w ih =>
    have h := ih (n / 10)
    rw [digitsValue] at h
    rw [digitsValue, decimals, List.foldl_append, h, List.foldl_cons, List.foldl_nil, toNat_digit,
      pow_succ', Nat.mod_mul]
    omega

theorem dropWhile_space {b : UInt8} (hb : isSpace b = false) (bs : List UInt8) :
    (b :: bs).dropWhile isSpace = b :: bs ∧ (b :: bs).takeWhile isSpace = [] :=
  ⟨List.dropWhile_cons_of_neg (by simp [hb]), List.takeWhile_cons_of_neg (by simp [hb])⟩

theorem takeWhile_decimals (hrest : ∀ b ∈ rest.head?, isDigit b = false) :
    (decimals w n ++ rest).takeWhile isDigit = decimals w n :=
  takeWhile_digits (fun _ hb => isDigit_decimals hb) hrest

theorem strtoulPrefix_decimals (hlt : n < 10 ^ 6) (hrest : ∀ b ∈ rest.head?, isDigit b = false) :
    strtoulPrefix (decimals 6 n ++ rest) = (n, 6) := by
  have htake := @takeWhile_decimals 6 n rest hrest
  have hvalue : digitsValue (decimals 6 n) = n := by
    rw [digitsValue_decimals, Nat.mod_eq_of_lt hlt]
  have hne : decimals 6 n ≠ [] := List.ne_nil_of_length_pos (by simp)
  obtain ⟨b, bs, hcons⟩ := List.exists_cons_of_ne_nil hne
  have hb : b ∈ decimals 6 n := hcons ▸ List.mem_cons_self
  obtain ⟨hdrop, hblanks⟩ := dropWhile_space (digit_not_space hb) (bs ++ rest)
  have hsign := splitSign_digit (decimals_digit hb).1 (bs ++ rest)
  rw [← List.cons_append, ← hcons] at hdrop hblanks hsign
  rw [strtoulPrefix, hblanks, hdrop, hsign]
  simp only [htake, hvalue, hne, if_false, Bool.false_eq_true, length_decimals, List.length_nil]
  rw [min_eq_left (by omega)]

theorem scanUnsigned_decimals (hlt : n < 100) :
    scanUnsigned 2 (decimals 2 n ++ rest) = some (.ofNat n, rest) := by
  have htake : (decimals 2 n ++ rest).take 2 = decimals 2 n := List.take_left' (length_decimals 2 n)
  have hdigits : (decimals 2 n).takeWhile isDigit = decimals 2 n := by
    have h := @takeWhile_decimals 2 n [] (by simp)
    rwa [List.append_nil] at h
  have hvalue : digitsValue (decimals 2 n) = n := by
    rw [digitsValue_decimals, Nat.mod_eq_of_lt (by omega)]
  have hne : decimals 2 n ≠ [] := List.ne_nil_of_length_pos (by simp)
  obtain ⟨b, bs, hcons⟩ := List.exists_cons_of_ne_nil hne
  have hb : b ∈ decimals 2 n := hcons ▸ List.mem_cons_self
  obtain ⟨hdrop, -⟩ := dropWhile_space (digit_not_space hb) (bs ++ rest)
  have hsign := splitSign_digit (decimals_digit hb).1 bs
  rw [← hcons] at hsign
  rw [← List.cons_append, ← hcons] at hdrop
  rw [scanUnsigned]
  simp only [hdrop, htake, hsign, hdigits, hvalue, hne, if_false, Bool.false_eq_true,
    length_decimals]
  rw [List.drop_left' (by simp)]

theorem scanUnsigned_minus (hlt : n < 100) :
    ∃ rest', scanUnsigned 2 (45 :: (decimals 2 n ++ rest)) =
      some (-.ofNat (n / 10), rest') := by
  have htens : decimals 2 n = [.ofNat (48 + n / 10 % 10), .ofNat (48 + n % 10)] := by
    simp [decimals]
  have hdigit : isDigit (.ofNat (48 + n / 10 % 10)) = true :=
    isDigit_decimals (w := 2) (n := n) (by rw [htens]; simp)
  have hvalue : digitsValue [UInt8.ofNat (48 + n / 10 % 10)] = n / 10 := by
    simp only [digitsValue, List.foldl_cons, List.foldl_nil, toNat_digit]
    omega
  have hspace : isSpace 45 = false := by decide
  refine ⟨(45 :: (decimals 2 n ++ rest)).drop 2, ?_⟩
  rw [scanUnsigned, (dropWhile_space hspace _).1, htens]
  simp only [List.cons_append, List.take_succ_cons, List.take_zero, splitSign]
  rw [List.takeWhile_cons_of_pos hdigit, List.takeWhile_nil, hvalue]
  rfl

end

section

variable {tm : Tm} {rest : List UInt8}

def dateText (tm : Tm) (rest : List UInt8) : List UInt8 :=
  decimals 4 (tm.year + 1900).toNat ++ (45 :: (decimals 2 (tm.mon + 1).toNat ++
    (45 :: (decimals 2 tm.mday.toNat ++ rest))))

def clockText (tm : Tm) (rest : List UInt8) : List UInt8 :=
  decimals 2 tm.hour.toNat ++ (58 :: (decimals 2 tm.min.toNat ++
    (58 :: (decimals 2 tm.sec.toNat ++ rest))))

theorem strptimeYmd_dateText (tm₀ : Tm) (h : tm.InRange) :
    strptimeYmd tm₀ (dateText tm rest) =
      some ({ tm₀ with year := tm.year, mon := tm.mon, mday := tm.mday }, rest) := by
  obtain ⟨-, -, -, hmday, hmon, hyear⟩ := h
  have h4 : ∀ rest, getNumber 0 9999 4 (decimals 4 (tm.year + 1900).toNat ++ rest) =
      some ((tm.year + 1900).toNat, rest) := fun _ =>
    getNumber_decimals (by decide) (by omega) (by omega) (by omega)
  have h2 : ∀ rest, getNumber 1 12 2 (decimals 2 (tm.mon + 1).toNat ++ rest) =
      some ((tm.mon + 1).toNat, rest) := fun _ =>
    getNumber_decimals (by decide) (by omega) (by omega) (by omega)
  have h2' : ∀ rest, getNumber 1 31 2 (decimals 2 tm.mday.toNat ++ rest) =
      some (tm.mday.toNat, rest) := fun _ =>
    getNumber_decimals (by decide) (by omega) (by omega) (by omega)
  rw [strptimeYmd, dateText, h4]
  simp only [Option.bind_eq_bind, Option.bind_some, matchByte, if_true, h2, h2', Option.pure_def,
    Option.some.injEq, Prod.mk.injEq, and_true, Tm.mk.injEq, true_and]
  omega

theorem strptimeHms_clockText (tm₀ : Tm) (h : tm.InRange) :
    strptimeHms tm₀ (clockText tm rest) =
      some ({ tm₀ with hour := tm.hour, min := tm.min, sec := tm.sec }, rest) := by
  obtain ⟨hsec, hmin, hhour, -, -, -⟩ := h
  have h2 : ∀ rest, getNumber 0 23 2 (decimals 2 tm.hour.toNat ++ rest) =
      some (tm.hour.toNat, rest) := fun _ =>
    getNumber_decimals (by decide) (by omega) (by omega) (by omega)
  have h2' : ∀ rest, getNumber 0 59 2 (decimals 2 tm.min.toNat ++ rest) =
      some (tm.min.toNat, rest) := fun _ =>
    getNumber_decimals (by decide) (by omega) (by omega) (by omega)
  have h2'' : ∀ rest, getNumber 0 61 2 (decimals 2 tm.sec.toNat ++ rest) =
      some (tm.sec.toNat, rest) := fun _ =>
    getNumber_decimals (by decide) (by omega) (by omega) (by omega)
  rw [strptimeHms, clockText, h2]
  simp only [Option.bind_eq_bind, Option.bind_some, matchByte, if_true, h2', h2'', Option.pure_def,
    Option.some.injEq, Prod.mk.injEq, and_true, Tm.mk.injEq]
  omega

def offsetText (off : Int32) : List UInt8 :=
  printInt true 2 (off.toInt.tdiv 3600) ++ (58 :: printInt false 2 ((off.toInt.tmod 3600).tdiv 60))

theorem idmefTimeToString_eq (t : IdmefTime) (husec : t.usec.toNat < 10 ^ 6) :
    idmefTimeToString t =
      dateText (gmtime (t.sec + t.gmtOffset.toUInt32)) (84 ::
        clockText (gmtime (t.sec + t.gmtOffset.toUInt32))
          (46 :: (decimals 6 t.usec.toNat ++ offsetText t.gmtOffset))) := by
  obtain ⟨hsec, hmin, hhour, hmday, hmon, hyear⟩ :=
    gmtime_inRange (t.sec + t.gmtOffset.toUInt32)
  rw [idmefTimeToString]
  generalize gmtime (t.sec + t.gmtOffset.toUInt32) = tm at *
  simp only [printInt_four (show 1000 ≤ tm.year + 1900 by omega) (by omega),
    printInt_two (show 0 ≤ tm.mon + 1 by omega) (by omega),
    printInt_two (show 0 ≤ tm.mday by omega) (by omega), printInt_two hhour.1 (by omega),
    printInt_two hmin.1 (by omega), printInt_two hsec.1 (by omega),
    printUnsigned_eq (show 1 ≤ 6 by decide) husec, dateText, clockText, offsetText,
    List.append_assoc, List.cons_append]

theorem parseTimeYmd_dateText (tm₀ : Tm) (h : tm.InRange) :
    parseTimeYmd tm₀ (dateText tm (84 :: rest)) =
      some ({ tm₀ with year := tm.year, mon := tm.mon, mday := tm.mday }, rest) := by
  rw [parseTimeYmd, strptimeYmd_dateText tm₀ h]
  rfl

theorem parseTimeHmsu_clockText (tm₀ : Tm) (h : tm.InRange) {usec : UInt32}
    (husec : usec.toNat < 10 ^ 6) (hrest : ∀ b ∈ rest.head?, isDigit b = false) :
    parseTimeHmsu tm₀ (clockText tm (46 :: (decimals 6 usec.toNat ++ rest))) =
      some ({ tm₀ with hour := tm.hour, min := tm.min, sec := tm.sec }, usec, rest) := by
  have hsmall : usec < 0x80000000 := by
    rw [UInt32.lt_iff_toNat_lt]
    exact husec.trans (by decide)
  have hdrop : (decimals 6 usec.toNat ++ rest).drop 6 = rest :=
    List.drop_left' (length_decimals 6 _)
  rw [parseTimeHmsu, strptimeHms_clockText tm₀ h]
  simp only [Option.bind_eq_bind, Option.bind_some, true_or, if_true,
    strtoulPrefix_decimals husec hrest, hdrop, digit2usec, UInt32.ofNat_toNat]
  simp [hsmall]

theorem toNat_offset (off : Int32) : (off.toUInt32.toNat : ℤ) = off.toInt % 2 ^ 32 := by
  have hlt := off.toBitVec.isLt
  have hcond := BitVec.toInt_eq_toNat_cond off.toBitVec
  rw [← Int32.toInt_toBitVec, ← Int32.toNat_toBitVec]
  split at hcond
  · omega
  · omega

theorem printInt_natCast {n : ℕ} (hn : n < 100) (plus : Bool) :
    printInt plus 2 n = (if plus then [43] else []) ++ decimals 2 n := by
  rw [printInt, if_neg (by omega), printUnsigned_eq (by decide) (by omega), Int.natAbs_natCast]

theorem printInt_neg {n : ℕ} (hpos : 0 < n) (hn : n < 100) (plus : Bool) :
    printInt plus 2 (-(n : ℤ)) = 45 :: decimals 2 n := by
  rw [printInt, if_pos (by omega), printUnsigned_eq (by decide) (by omega), Int.natAbs_neg,
    Int.natAbs_natCast]
  rfl

theorem offsetText_nonneg {off : Int32} {n : ℕ} (hoff : off.toInt = n) (hlt : n < 86400) :
    offsetText off = 43 :: (decimals 2 (n / 3600) ++ (58 :: decimals 2 (n % 3600 / 60))) := by
  have hhour : off.toInt.tdiv 3600 = (n / 3600 : ℕ) := by
    rw [hoff]
    rfl
  have hmin : (off.toInt.tmod 3600).tdiv 60 = (n % 3600 / 60 : ℕ) := by
    rw [hoff]
    rfl
  rw [offsetText, hhour, hmin, printInt_natCast (by omega), printInt_natCast (by omega)]
  rfl

theorem offsetText_neg {off : Int32} {n : ℕ} (hoff : off.toInt = -n) :
    offsetText off = printInt true 2 (-(n / 3600 : ℕ)) ++
      (58 :: printInt false 2 (-(n % 3600 / 60 : ℕ))) := by
  have hhour : off.toInt.tdiv 3600 = -(n / 3600 : ℕ) := by
    rw [hoff, Int.neg_tdiv]
    rfl
  have hmin : (off.toInt.tmod 3600).tdiv 60 = -(n % 3600 / 60 : ℕ) := by
    rw [hoff, Int.neg_tmod, Int.neg_tdiv]
    rfl
  rw [offsetText, hhour, hmin]

theorem scanUnsigned_last {b : ℕ} (hb : b < 100) :
    scanUnsigned 2 (decimals 2 b) = some (.ofNat b, []) := by
  have h := @scanUnsigned_decimals b [] hb
  rwa [List.append_nil] at h

theorem parseTimeGmt_plus {a : ℕ} {m : UInt32} {text rest' : List UInt8} (ha : a < 100)
    (hmin : scanUnsigned 2 text = some (m, rest')) :
    parseTimeGmt tm 0 (43 :: (decimals 2 a ++ (58 :: text))) =
      some ({ tm with min := intSub tm.min m, hour := intSub tm.hour (.ofNat a) },
        (UInt32.ofNat a * 3600 + m * 60).toInt32) := by
  rw [parseTimeGmt]
  · simp only [scanUnsigned_decimals ha, matchByte, hmin, Option.bind_eq_bind, Option.bind_some,
      if_true]
    rfl
  · intro h
    cases h

theorem parseTimeGmt_minus {a : ℕ} {m : UInt32} {text rest' : List UInt8} (ha : a < 100)
    (hmin : scanUnsigned 2 text = some (m, rest')) :
    parseTimeGmt tm 0 (45 :: (decimals 2 a ++ (58 :: text))) =
      some ({ tm with min := intAdd tm.min m, hour := intAdd tm.hour (.ofNat a) },
        (-(UInt32.ofNat a * 3600 + m * 60)).toInt32) := by
  rw [parseTimeGmt]
  · simp only [scanUnsigned_decimals ha, matchByte, hmin, Option.bind_eq_bind, Option.bind_some,
      if_true]
    rfl
  · intro h
    cases h

theorem parseTimeGmt_inner_minus {a b : ℕ} (ha : a < 100) (hb : b < 100) (sign : UInt8)
    (hsign : sign = 43 ∨ sign = 45) :
    ∃ tm', parseTimeGmt tm 0 (sign :: (decimals 2 a ++ (58 :: 45 :: decimals 2 b))) =
      some (tm', (if sign = 43 then UInt32.ofNat a * 3600 + -UInt32.ofNat (b / 10) * 60
        else -(UInt32.ofNat a * 3600 + -UInt32.ofNat (b / 10) * 60)).toInt32) := by
  obtain ⟨rest', hmin⟩ := @scanUnsigned_minus b [] hb
  rw [List.append_nil] at hmin
  obtain rfl | rfl := hsign
  · exact ⟨_, parseTimeGmt_plus ha hmin⟩
  · exact ⟨_, parseTimeGmt_minus ha hmin⟩

/-- A broken-down time without the days of the week and of the year. -/
def Tm.dateAndClock (tm : Tm) : Tm := { tm with wday := 0, yday := 0 }

/-- What is read of a printed time. -/
theorem idmefTimeSetFromString_text (L : LocalTime) (t : IdmefTime)
    (husec : t.usec.toNat < 10 ^ 6) (hfirst : ∃ b bs, offsetText t.gmtOffset = b :: bs ∧
      isDigit b = false) :
    idmefTimeSetFromString L (idmefTimeToString t) =
      (parseTimeGmt (gmtime (t.sec + t.gmtOffset.toUInt32)).dateAndClock 0
        (offsetText t.gmtOffset)).map fun r => ⟨storedSec (timegm r.1), t.usec, r.2⟩ := by
  have hrange := gmtime_inRange (t.sec + t.gmtOffset.toUInt32)
  obtain ⟨b, bs, hcons, hb⟩ := hfirst
  have hrest : ∀ b ∈ (offsetText t.gmtOffset).head?, isDigit b = false := by
    rw [hcons]
    intro c hc
    cases hc
    exact hb
  have hne : offsetText t.gmtOffset ≠ [] := by simp [hcons]
  have hclock : ∀ tm rest, clockText tm rest ≠ [] := by
    intro tm rest h
    have := congrArg List.length h
    simp [clockText] at this
  rw [idmefTimeSetFromString, idmefTimeToString_eq t husec]
  simp only [Option.bind_eq_bind, parseTimeYmd_dateText _ hrange, Option.bind_some, hclock,
    if_false, parseTimeHmsu_clockText _ hrange husec hrest, hne]
  rw [← Tm.dateAndClock]
  cases parseTimeGmt (gmtime (t.sec + t.gmtOffset.toUInt32)).dateAndClock 0
    (offsetText t.gmtOffset) with
  | none => rfl
  | some r => rfl

theorem intSub_small {a : ℤ} {b : ℕ} (ha : 0 ≤ a ∧ a < 100) (hb : b < 100) :
    intSub a (.ofNat b) = a - b := by
  rw [intSub, UInt32.toNat_ofNat', Nat.mod_eq_of_lt (by omega)]
  exact Int.bmod_eq_of_le (by omega) (by omega)

theorem intAdd_small {a : ℤ} {b : ℕ} (ha : 0 ≤ a ∧ a < 100) (hb : b < 100) :
    intAdd a (.ofNat b) = a + b := by
  rw [intAdd, UInt32.toNat_ofNat', Nat.mod_eq_of_lt (by omega)]
  exact Int.bmod_eq_of_le (by omega) (by omega)

theorem timegm_shift (tm : Tm) (hour min : ℤ) :
    timegm { tm with min := tm.min + min, hour := tm.hour + hour } =
      timegm tm + hour * 3600 + min * 60 := by
  simp only [timegm]
  omega

theorem dateAndClock_spec (sec : UInt32) :
    (0 ≤ (gmtime sec).dateAndClock.min ∧ (gmtime sec).dateAndClock.min < 100) ∧
      (0 ≤ (gmtime sec).dateAndClock.hour ∧ (gmtime sec).dateAndClock.hour < 100) ∧
      timegm (gmtime sec).dateAndClock = sec.toNat := by
  obtain ⟨-, hmin, hhour, -, -, -⟩ := gmtime_inRange sec
  refine ⟨⟨hmin.1, hmin.2.trans (by decide)⟩, ⟨hhour.1, hhour.2.trans (by decide)⟩, ?_⟩
  exact timegm_gmtime sec

theorem storedSec_sub (sec : UInt32) (off : Int32) :
    storedSec ((sec + off.toUInt32).toNat - off.toInt) = sec := by
  have hoff := toNat_offset off
  have hsec := sec.toNat_lt
  rw [← UInt32.toNat_inj, storedSec, UInt32.toNat_ofNat', UInt32.toNat_add]
  omega

theorem toNat_offsetOf {a b : ℕ} (ha : a < 100) (hb : b < 100) :
    (UInt32.ofNat a * 3600 + UInt32.ofNat b * 60).toNat = a * 3600 + b * 60 := by
  rw [UInt32.toNat_add, UInt32.toNat_mul, UInt32.toNat_mul, UInt32.toNat_ofNat',
    UInt32.toNat_ofNat', show UInt32.toNat 3600 = 3600 from rfl,
    show UInt32.toNat 60 = 60 from rfl]
  omega

theorem offset_eq_iff {x : UInt32} {off : Int32} :
    x.toInt32 = off ↔ (x.toNat : ℤ) = off.toInt % 2 ^ 32 := by
  rw [← toNat_offset]
  constructor
  · rintro rfl
    rfl
  · intro h
    rw [Nat.cast_inj, UInt32.toNat_inj] at h
    rw [h]
    rfl

theorem round_trip_nonneg (L : LocalTime) (t : IdmefTime) (husec : t.usec.toNat < 10 ^ 6) {n : ℕ}
    (hoff : t.gmtOffset.toInt = n) (hlt : n < 86400) (hwhole : n % 60 = 0) :
    idmefTimeSetFromString L (idmefTimeToString t) = some t := by
  have htext := offsetText_nonneg hoff hlt
  obtain ⟨hmin, hhour, hsum⟩ := dateAndClock_spec (t.sec + t.gmtOffset.toUInt32)
  have hgmt : (UInt32.ofNat (n / 3600) * 3600 + UInt32.ofNat (n % 3600 / 60) * 60).toInt32 =
      t.gmtOffset := by
    rw [offset_eq_iff, toNat_offsetOf (by omega) (by omega)]
    omega
  have hshift : (t.sec + t.gmtOffset.toUInt32).toNat + -((n / 3600 : ℕ) : ℤ) * 3600 +
      -((n % 3600 / 60 : ℕ) : ℤ) * 60 =
        (t.sec + t.gmtOffset.toUInt32).toNat - t.gmtOffset.toInt := by
    omega
  rw [idmefTimeSetFromString_text L t husec ⟨43, _, htext, by decide⟩, htext,
    parseTimeGmt_plus (by omega) (scanUnsigned_last (by omega)), Option.map_some, hgmt,
    intSub_small hmin (by omega), intSub_small hhour (by omega), sub_eq_add_neg, sub_eq_add_neg,
    timegm_shift, hsum, hshift, storedSec_sub]

theorem round_trip_hours (L : LocalTime) (t : IdmefTime) (husec : t.usec.toNat < 10 ^ 6) {n : ℕ}
    (hoff : t.gmtOffset.toInt = -n) (hpos : 0 < n) (hlt : n < 86400) (hwhole : n % 3600 = 0) :
    idmefTimeSetFromString L (idmefTimeToString t) = some t := by
  have htext : offsetText t.gmtOffset =
      45 :: (decimals 2 (n / 3600) ++ (58 :: decimals 2 (n % 3600 / 60))) := by
    rw [offsetText_neg hoff, printInt_neg (by omega) (by omega), hwhole]
    rfl
  obtain ⟨hmin, hhour, hsum⟩ := dateAndClock_spec (t.sec + t.gmtOffset.toUInt32)
  have hgmt : (-(UInt32.ofNat (n / 3600) * 3600 + UInt32.ofNat (n % 3600 / 60) * 60)).toInt32 =
      t.gmtOffset := by
    rw [offset_eq_iff, UInt32.toNat_neg, toNat_offsetOf (by omega) (by omega),
      show UInt32.size = 4294967296 from rfl]
    omega
  have hshift : (t.sec + t.gmtOffset.toUInt32).toNat + ((n / 3600 : ℕ) : ℤ) * 3600 +
      ((n % 3600 / 60 : ℕ) : ℤ) * 60 =
        (t.sec + t.gmtOffset.toUInt32).toNat - t.gmtOffset.toInt := by
    omega
  rw [idmefTimeSetFromString_text L t husec ⟨45, _, htext, by decide⟩, htext,
    parseTimeGmt_minus (by omega) (scanUnsigned_last (by omega)), Option.map_some, hgmt,
    intAdd_small hmin (by omega), intAdd_small hhour (by omega), timegm_shift, hsum, hshift,
    storedSec_sub]

theorem toNat_minusTens {a c : ℕ} (ha : a < 100) (hc : c < 10) :
    ((UInt32.ofNat a * 3600 + -UInt32.ofNat c * 60).toNat : ℤ) = (3600 * a - 60 * c) % 2 ^ 32 := by
  have hneg : (-UInt32.ofNat c * 60).toNat = (4294967296 - 60 * c) % 4294967296 := by
    rw [UInt32.toNat_mul, UInt32.toNat_neg, UInt32.toNat_ofNat',
      show UInt32.toNat 60 = 60 from rfl, show UInt32.size = 4294967296 from rfl,
      Nat.mod_eq_of_lt (show c < 2 ^ 32 by omega)]
    omega
  have hhour : (UInt32.ofNat a * 3600).toNat = 3600 * a := by
    rw [UInt32.toNat_mul, UInt32.toNat_ofNat', show UInt32.toNat 3600 = 3600 from rfl]
    omega
  rw [UInt32.toNat_add, hneg, hhour]
  omega

theorem offset_inner_minus {n a m : ℕ} (hn : n = 3600 * a + 60 * m) (ha : a < 24) (hm : m < 60)
    (hpos : 0 < m) {x : UInt32} (hx : (x.toNat : ℤ) = (3600 * a - 60 * (m / 10 : ℕ)) % 2 ^ 32) :
    (a = 0 → (x.toNat : ℤ) ≠ -n % 2 ^ 32) ∧ ((-x).toNat : ℤ) ≠ -n % 2 ^ 32 := by
  have hneg : ((-x).toNat : ℤ) = -x.toNat % 2 ^ 32 := by
    have := x.toNat_lt
    rw [UInt32.toNat_neg, show UInt32.size = 4294967296 from rfl]
    omega
  constructor
  · rintro rfl
    omega
  · omega

theorem no_round_trip_minutes (L : LocalTime) (t : IdmefTime) (husec : t.usec.toNat < 10 ^ 6)
    {n : ℕ} (hoff : t.gmtOffset.toInt = -n) (hlt : n < 86400) (hwhole : n % 60 = 0)
    (hminutes : n % 3600 ≠ 0) : idmefTimeSetFromString L (idmefTimeToString t) ≠ some t := by
  have htext : ∃ sign, (sign = 43 ∨ sign = 45) ∧ (sign = 43 ↔ n / 3600 = 0) ∧
      offsetText t.gmtOffset =
        sign :: (decimals 2 (n / 3600) ++ (58 :: 45 :: decimals 2 (n % 3600 / 60))) := by
    rw [offsetText_neg hoff, @printInt_neg (n % 3600 / 60) (by omega) (by omega)]
    by_cases hzero : n / 3600 = 0
    · refine ⟨43, Or.inl rfl, iff_of_true rfl hzero, ?_⟩
      rw [hzero]
      rfl
    · refine ⟨45, Or.inr rfl, iff_of_false (by decide) hzero, ?_⟩
      rw [printInt_neg (by omega) (by omega)]
      rfl
  obtain ⟨sign, hsign, hiff, htext⟩ := htext
  obtain ⟨tm', hparse⟩ := @parseTimeGmt_inner_minus
    (gmtime (t.sec + t.gmtOffset.toUInt32)).dateAndClock (n / 3600) (n % 3600 / 60)
    (by omega) (by omega) sign hsign
  have hdigit : isDigit sign = false := by obtain rfl | rfl := hsign <;> decide
  rw [idmefTimeSetFromString_text L t husec ⟨sign, _, htext, hdigit⟩, htext, hparse]
  intro heq
  have hgmt := congrArg (Option.map IdmefTime.gmtOffset) heq
  simp only [Option.map_some, Option.some.injEq] at hgmt
  rw [offset_eq_iff, hoff] at hgmt
  obtain ⟨hplus, hminus⟩ := @offset_inner_minus n (n / 3600) (n % 3600 / 60) (by omega) (by omega)
    (by omega) (by omega) _ (toNat_minusTens (by omega) (by omega))
  obtain rfl | rfl := hsign
  · exact hplus (hiff.mp rfl) hgmt
  · exact hminus hgmt

end

/-- A time with a whole number of minutes as its offset is read as it was printed just if the offset
is not negative, or a whole number of hours. -/
theorem time_text_round_trip_iff (L : LocalTime) (t : IdmefTime) (husec : t.usec.toNat < 10 ^ 6)
    (hlow : -86400 < t.gmtOffset.toInt) (hhigh : t.gmtOffset.toInt < 86400)
    (hwhole : t.gmtOffset.toInt % 60 = 0) :
    idmefTimeSetFromString L (idmefTimeToString t) = some t ↔
      0 ≤ t.gmtOffset.toInt ∨ t.gmtOffset.toInt % 3600 = 0 := by
  by_cases hnonneg : 0 ≤ t.gmtOffset.toInt
  · obtain ⟨n, hn⟩ := Int.eq_ofNat_of_zero_le hnonneg
    exact iff_of_true (round_trip_nonneg L t husec hn (by omega) (by omega)) (Or.inl hnonneg)
  · obtain ⟨n, hn⟩ := Int.eq_ofNat_of_zero_le (show 0 ≤ -t.gmtOffset.toInt by omega)
    have hn' : t.gmtOffset.toInt = -n := by omega
    by_cases hhours : t.gmtOffset.toInt % 3600 = 0
    · exact iff_of_true (round_trip_hours L t husec hn' (by omega) (by omega) (by omega))
        (Or.inr hhours)
    · refine iff_of_false ?_ (by omega)
      exact no_round_trip_minutes L t husec hn' (by omega) (by omega) (by omega)

theorem time_text_round_trip_east :
    idmefTimeSetFromString ⟨fun _ => 0, timegm⟩ (idmefTimeToString ⟨1000000000, 5, 19800⟩) =
      some ⟨1000000000, 5, 19800⟩ :=
  (time_text_round_trip_iff ⟨fun _ => 0, timegm⟩ ⟨1000000000, 5, 19800⟩ (by decide) (by decide)
    (by decide) (by decide)).mpr (by decide)

/-- An hour and a half west of Greenwich the offset is read as 57 minutes. -/
theorem time_text_round_trip_west :
    idmefTimeSetFromString ⟨fun _ => 0, timegm⟩ (idmefTimeToString ⟨1000000000, 5, -5400⟩) ≠
      some ⟨1000000000, 5, -5400⟩ :=
  @no_round_trip_minutes ⟨fun _ => 0, timegm⟩ ⟨1000000000, 5, -5400⟩ (by decide) 5400 (by decide)
    (by decide) (by decide) (by decide)

end LibPrelude
