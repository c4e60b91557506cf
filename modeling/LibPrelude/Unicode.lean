import LibPrelude.Idmef.ValueType

/-! # Unicode escapes

An escape names a code point by hexadecimal digits, four after `\u` and eight after
`\U`; a high surrogate is paired with the low surrogate of a second escape. The code
point is appended in UTF-8. A read past the end of the input gives no result.
-/

namespace LibPrelude

/-- The difference of two sizes, which wraps. -/
def sizeSub (a b : ℕ) : ℕ := if b ≤ a then a - b else 2 ^ 64 - (b - a)

/-- A verbose error of no particular source: the code 1 and the bit of verbose errors. -/
def errorGeneric : BitVec 32 := -(1#32 ||| 1#32 <<< 22)

def hexval (c : UInt8) : BitVec 32 :=
  if 48 ≤ c ∧ c ≤ 57 then .ofNat 32 (c.toNat - 48)
  else if 97 ≤ c ∧ c ≤ 102 then .ofNat 32 (c.toNat - 97 + 10)
  else if 65 ≤ c ∧ c ≤ 70 then .ofNat 32 (c.toNat - 65 + 10)
  else errorGeneric

/-- The digits left from a position on, each shifted four bits less than the one before. -/
def unescapeLoop (mem : List UInt8) : ℕ → ℕ → ℕ → BitVec 32 → Option (BitVec 32)
  | 0, _, _, ret => some ret
  | n + 1, i, bits, ret => do
    let c ← mem[i]?
    unescapeLoop mem n (i + 1) (bits - 4) (ret ||| hexval c <<< bits)

def unescapeUnicode (mem : List UInt8) (i len bits : ℕ) : Option (BitVec 32) :=
  let size := bits / 4
  if size > len then some errorGeneric else unescapeLoop mem size i (bits - 4) 0

def firstByte (order : ByteOrder) (codepoint : BitVec 32) : UInt8 :=
  match order with
  | .little => .ofNat codepoint.toNat
  | .big => .ofNat (codepoint >>> 24).toNat

/-- The value returned and the bytes appended. -/
def unicodeToUtf8 (order : ByteOrder) (codepoint : BitVec 32) : BitVec 32 × List UInt8 :=
  let c := codepoint.toNat
  if c < 0x80 then (1, [firstByte order codepoint])
  else if c < 0x800 then (1, [.ofNat (192 + c / 64), .ofNat (128 + c % 64)])
  else if (codepoint - 0xd800).toNat < 0x800 then (0, [])
  else if c < 0x10000 then
    (1, [.ofNat (224 + c / 4096), .ofNat (128 + c / 64 % 64), .ofNat (128 + c % 64)])
  else if c < 0x110000 then
    (1, [.ofNat (240 + c / 262144), .ofNat (128 + c / 4096 % 64), .ofNat (128 + c / 64 % 64),
      .ofNat (128 + c % 64)])
  else (errorGeneric, [])

def unicodeFinish (order : ByteOrder) (codepoint : BitVec 32) (size : ℕ) : ℤ × List UInt8 :=
  let (ret, out) := unicodeToUtf8 order codepoint
  (if ret.msb then ret.toInt else size, out)

/-- The value returned and the bytes appended to the string, if only the input is read. -/
def preludeUnicodeToString (order : ByteOrder) (mem : List UInt8) : Option (ℤ × List UInt8) := do
  let len := mem.length
  if (← mem[0]?) ≠ 92 then return (errorGeneric.toInt, [])
  let letter ← mem[1]?
  if letter = 85 then
    let codepoint ← unescapeUnicode mem 2 (sizeSub len 2) 32
    if codepoint.msb then return (codepoint.toInt, [])
    return unicodeFinish order codepoint 10
  else if letter = 117 then
    let codepoint ← unescapeUnicode mem 2 (sizeSub len 2) 16
    if codepoint.msb then return (codepoint.toInt, [])
    if codepoint &&& 0xfc00 = 0xd800 then
      let ret ← unescapeUnicode mem 8 (sizeSub len 8) 16
      if ret.msb then return (ret.toInt, [])
      if (← mem[6]?) ≠ 92 then
        if (← mem[7]?) ≠ 117 then return (errorGeneric.toInt, [])
      return unicodeFinish order (0x10000 + (codepoint - 0xd800) <<< 10 + (ret - 0xdc00)) 12
    return unicodeFinish order codepoint 6
  else return (errorGeneric.toInt, [])

def digitValue (c : UInt8) : Option ℕ :=
  if 48 ≤ c ∧ c ≤ 57 then some (c.toNat - 48)
  else if 97 ≤ c ∧ c ≤ 102 then some (c.toNat - 87)
  else if 65 ≤ c ∧ c ≤ 70 then some (c.toNat - 55)
  else none

def hexNumberFrom : ℕ → List UInt8 → Option ℕ
  | v, [] => some v
  | v, c :: ds => (digitValue c).bind fun d => hexNumberFrom (v * 16 + d) ds

def hexNumber (ds : List UInt8) : Option ℕ := hexNumberFrom 0 ds

/-- The input starts with an escape of some size that names a character. -/
inductive NamesChar : List UInt8 → ℕ → Char → Prop
  | long {ds rest : List UInt8} {c : Char} :
      ds.length = 8 → hexNumber ds = some c.toNat → NamesChar (92 :: 85 :: (ds ++ rest)) 10 c
  | short {ds rest : List UInt8} {c : Char} :
      ds.length = 4 → hexNumber ds = some c.toNat → NamesChar (92 :: 117 :: (ds ++ rest)) 6 c
  | pair {hs ls rest : List UInt8} {hi lo : ℕ} {c : Char} :
      hs.length = 4 → hexNumber hs = some hi → 0xd800 ≤ hi → hi < 0xdc00 →
      ls.length = 4 → hexNumber ls = some lo → 0xdc00 ≤ lo → lo < 0xe000 →
      c.toNat = 0x10000 + (hi - 0xd800) * 0x400 + (lo - 0xdc00) →
      NamesChar (92 :: 117 :: (hs ++ 92 :: 117 :: (ls ++ rest))) 12 c

/-- Only the input is read; what is named is appended in UTF-8, anything else is an error. -/
def Translated (inp : List UInt8) (result : Option (ℤ × List UInt8)) : Prop :=
  ∃ ret out, result = some (ret, out) ∧ ret ≤ inp.length ∧
    (∀ size c, NamesChar inp size c → ret = size ∧ out = String.utf8EncodeChar c) ∧
    ((∀ size c, ¬ NamesChar inp size c) → ret < 0)

/-- The inputs that are not translated: surrogates alone, a high surrogate where the input ends
or before what is not exactly a low one, and on big-endian machines characters of one byte. -/
inductive Misread (order : ByteOrder) : List UInt8 → Prop
  | wide {ds rest : List UInt8} {v : ℕ} :
      ds.length = 8 → hexNumber ds = some v → 0xd800 ≤ v → v < 0xe000 →
      Misread order (92 :: 85 :: (ds ++ rest))
  | low {ds rest : List UInt8} {v : ℕ} :
      ds.length = 4 → hexNumber ds = some v → 0xdc00 ≤ v → v < 0xe000 →
      Misread order (92 :: 117 :: (ds ++ rest))
  | cut {ds rest : List UInt8} {v : ℕ} :
      ds.length = 4 → hexNumber ds = some v → 0xd800 ≤ v → v < 0xdc00 → rest.length < 2 →
      Misread order (92 :: 117 :: (ds ++ rest))
  | unpaired {hs ls rest : List UInt8} {a b : UInt8} {hi lo : ℕ} :
      hs.length = 4 → hexNumber hs = some hi → 0xd800 ≤ hi → hi < 0xdc00 →
      ls.length = 4 → hexNumber ls = some lo → a = 92 ∨ b = 117 →
      ¬ (a = 92 ∧ b = 117 ∧ 0xdc00 ≤ lo ∧ lo < 0xe000) →
      0x10000 + (hi - 0xd800) * 0x400 + lo < 0x110000 + 0xdc00 →
      Misread order (92 :: 117 :: (hs ++ a :: b :: (ls ++ rest)))
  | bigEndian {inp : List UInt8} {size : ℕ} {c : Char} :
      order = .big → NamesChar inp size c → 0 < c.toNat → c.toNat < 0x80 → Misread order inp

def StartsEscape (inp : List UInt8) : Prop :=
  ∃ rest, inp = 92 :: 85 :: rest ∨ inp = 92 :: 117 :: rest

section

variable {mem ds post : List UInt8} {i v w bits len : ℕ} {ret : BitVec 32} {c : UInt8}

theorem digitValue_some {d : ℕ} (h : digitValue c = some d) : hexval c = .ofNat 32 d ∧ d < 16 := by
  unfold digitValue at h
  unfold hexval
  split_ifs at h ⊢ with h₁ h₂ h₃ <;> obtain rfl := Option.some.inj h
  · simp only [UInt8.le_iff_toNat_le, UInt8.reduceToNat] at h₁
    exact ⟨rfl, by omega⟩
  · simp only [UInt8.le_iff_toNat_le, UInt8.reduceToNat] at h₂
    exact ⟨by congr 1; omega, by omega⟩
  · simp only [UInt8.le_iff_toNat_le, UInt8.reduceToNat] at h₃
    exact ⟨by congr 1; omega, by omega⟩

theorem digitValue_none (h : digitValue c = none) : hexval c = errorGeneric := by
  unfold digitValue at h
  unfold hexval
  split_ifs at h ⊢
  rfl

theorem hexNumberFrom_lt (h : hexNumberFrom v ds = some w) : w < (v + 1) * 16 ^ ds.length := by
  induction ds generalizing v with
  | nil =>
    obtain rfl := Option.some.inj h
    simp
  | cons c ds ih =>
    obtain ⟨d, hd, hrest⟩ := Option.bind_eq_some_iff.mp h
    have hlt := (digitValue_some hd).2
    calc w < (v * 16 + d + 1) * 16 ^ ds.length := ih hrest
      _ ≤ ((v + 1) * 16) * 16 ^ ds.length := Nat.mul_le_mul_right _ (by omega)
      _ = (v + 1) * 16 ^ (ds.length + 1) := by ring

theorem hexNumber_lt (h : hexNumber ds = some w) : w < 16 ^ ds.length := by
  simpa using hexNumberFrom_lt h

theorem unescapeLoop_msb (hmem : mem.drop i = ds ++ post) (hret : ret.msb) :
    ∃ r, unescapeLoop mem ds.length i bits ret = some r ∧ r.msb := by
  induction ds generalizing i bits ret with
  | nil => exact ⟨ret, rfl, hret⟩
  | cons c ds ih =>
    have hc : mem[i]? = some c := by
      rw [← List.head?_drop, hmem]
      rfl
    have hdrop : mem.drop (i + 1) = ds ++ post := by
      rw [← List.drop_drop, hmem]
      rfl
    rw [List.length_cons, unescapeLoop, hc]
    exact ih hdrop (by rw [BitVec.msb_or, hret]; rfl)

theorem unescapeLoop_spec (hmem : mem.drop i = ds ++ post) (hret : ret.toNat = v * 16 ^ ds.length)
    (hfit : (v + 1) * 16 ^ ds.length ≤ 2 ^ 32) :
    ∃ r, unescapeLoop mem ds.length i (4 * (ds.length - 1)) ret = some r ∧
      (∀ w, hexNumberFrom v ds = some w → r.toNat = w) ∧ (hexNumberFrom v ds = none → r.msb) := by
  induction ds generalizing i v ret with
  | nil =>
    refine ⟨ret, rfl, fun w h => ?_, nofun⟩
    obtain rfl := Option.some.inj h
    simpa using hret
  | cons c ds ih =>
    have hc : mem[i]? = some c := by
      rw [← List.head?_drop, hmem]
      rfl
    have hdrop : mem.drop (i + 1) = ds ++ post := by
      rw [← List.drop_drop, hmem]
      rfl
    have hbits : 4 * ((c :: ds).length - 1) - 4 = 4 * (ds.length - 1) := by
      rw [List.length_cons]
      omega
    rw [List.length_cons] at hret hfit
    rw [List.length_cons, unescapeLoop, hc, ← List.length_cons, hbits]
    cases hd : digitValue c with
    | none =>
      have hn : ds.length < 8 := by
        by_contra hge
        have : 16 ^ 9 ≤ 16 ^ (ds.length + 1) := Nat.pow_le_pow_right (by decide) (by omega)
        have : 1 * 16 ^ (ds.length + 1) ≤ (v + 1) * 16 ^ (ds.length + 1) :=
          Nat.mul_le_mul_right _ (by omega)
        omega
      have hmsb : (errorGeneric <<< (4 * ds.length)).msb := by
        revert hn
        generalize ds.length = n
        revert n
        decide
      obtain ⟨r, hr, hrmsb⟩ := unescapeLoop_msb hdrop
        (show (ret ||| hexval c <<< (4 * ds.length)).msb by
          rw [BitVec.msb_or, digitValue_none hd, hmsb, Bool.or_true])
      refine ⟨r, hr, fun w hw => ?_, fun _ => hrmsb⟩
      rw [hexNumberFrom, hd] at hw
      cases hw
    | some d =>
      obtain ⟨hval, hlt⟩ := digitValue_some hd
      have hpow : 2 ^ (4 * ds.length) = 16 ^ ds.length := by rw [pow_mul]; rfl
      have hpow' : 2 ^ (4 * ds.length + 4) = 16 ^ (ds.length + 1) := by
        rw [pow_add, hpow, pow_succ]
        rfl
      have hdfit : d * 16 ^ ds.length < 16 ^ (ds.length + 1) := by
        rw [pow_succ, mul_comm]
        exact Nat.mul_lt_mul_of_pos_left hlt (by positivity)
      have hsmall : 16 ^ (ds.length + 1) ≤ 2 ^ 32 :=
        le_trans (Nat.le_mul_of_pos_left _ (by omega)) hfit
      have hor : (ret ||| hexval c <<< (4 * ds.length)).toNat = (v * 16 + d) * 16 ^ ds.length := by
        have hshift : (hexval c <<< (4 * ds.length)).toNat = d * 16 ^ ds.length := by
          rw [hval, BitVec.toNat_shiftLeft, BitVec.toNat_ofNat, Nat.shiftLeft_eq, hpow,
            Nat.mod_eq_of_lt (by omega : d < 2 ^ 32), Nat.mod_eq_of_lt (by omega)]
        rw [BitVec.toNat_or, hshift, hret, ← hpow', ← Nat.shiftLeft_eq,
          ← Nat.shiftLeft_add_eq_or_of_lt (by rw [hpow']; exact hdfit), Nat.shiftLeft_eq, hpow']
        ring
      have hfit' : (v * 16 + d + 1) * 16 ^ ds.length ≤ 2 ^ 32 := by
        refine le_trans ?_ hfit
        rw [pow_succ, mul_comm (16 ^ ds.length), ← mul_assoc]
        exact Nat.mul_le_mul_right _ (by omega)
      obtain ⟨r, hr, hsome, hnone⟩ := ih hdrop hor hfit'
      refine ⟨r, hr, fun w hw => hsome w ?_, fun hw => hnone ?_⟩ <;>
        rwa [hexNumberFrom, hd] at hw

theorem unescapeUnicode_short (h : len < bits / 4) :
    unescapeUnicode mem i len bits = some errorGeneric := by
  unfold unescapeUnicode
  exact if_pos h

theorem unescapeUnicode_spec (hpos : ds ≠ []) (hds : ds.length ≤ 8) (hmem : mem.drop i = ds ++ post)
    (hlen : ds.length ≤ len) : ∃ r, unescapeUnicode mem i len (4 * ds.length) = some r ∧
      (∀ w, hexNumber ds = some w → r.toNat = w) ∧ (hexNumber ds = none → r.msb) := by
  have hfit : (0 + 1) * 16 ^ ds.length ≤ 2 ^ 32 := by
    rw [Nat.zero_add, Nat.one_mul, show 2 ^ 32 = 16 ^ 8 from rfl]
    exact Nat.pow_le_pow_right (by decide) hds
  have hn := List.length_pos_of_ne_nil hpos
  unfold unescapeUnicode
  rw [show 4 * ds.length / 4 = ds.length by omega, if_neg (by omega),
    show 4 * ds.length - 4 = 4 * (ds.length - 1) by omega]
  exact unescapeLoop_spec hmem (by simp) hfit

end

section

variable {order : ByteOrder} {cp : BitVec 32} {c : Char} {inp : List UInt8} {n v : ℕ}

theorem exists_char (hv : v < 0x110000) (hsur : ¬ (0xd800 ≤ v ∧ v < 0xe000)) :
    ∃ c : Char, c.toNat = v := by
  have hvalid : v.isValidChar := by
    unfold Nat.isValidChar
    omega
  refine ⟨Char.ofNat v, ?_⟩
  rw [Char.ofNat, dif_pos hvalid]
  rfl

theorem char_bounds (c : Char) : c.toNat < 0x110000 ∧ ¬ (0xd800 ≤ c.toNat ∧ c.toNat < 0xe000) := by
  have := c.valid
  rw [UInt32.isValidChar] at this
  change Nat.isValidChar c.toNat at this
  unfold Nat.isValidChar at this
  omega

theorem toNat_sub_surrogate (hcp : cp.toNat < 0x110000) :
    (cp - 0xd800).toNat < 0x800 ↔ 0xd800 ≤ cp.toNat ∧ cp.toNat < 0xe000 := by
  rw [BitVec.toNat_sub]
  change (2 ^ 32 - 0xd800 + cp.toNat) % 2 ^ 32 < 0x800 ↔ _
  omega

theorem unicodeToUtf8_char (hcp : cp.toNat = c.toNat)
    (horder : ¬ (order = .big ∧ 0 < c.toNat ∧ c.toNat < 0x80)) :
    unicodeToUtf8 order cp = (1, String.utf8EncodeChar c) := by
  obtain ⟨hmax, hsur⟩ := char_bounds c
  have hsub := @toNat_sub_surrogate cp (by omega)
  unfold unicodeToUtf8 String.utf8EncodeChar
  change _ = (1, if c.toNat ≤ 0x7f then _ else if c.toNat ≤ 0x7ff then _
    else if c.toNat ≤ 0xffff then _ else _)
  simp only [hcp] at hsub ⊢
  by_cases h₁ : c.toNat < 0x80
  · rw [if_pos h₁, if_pos (by omega)]
    cases order with
    | little =>
      rw [firstByte, hcp]
      rfl
    | big =>
      have hzero : c.toNat = 0 := by
        by_contra hne
        exact horder ⟨rfl, by omega, h₁⟩
      have : cp = 0 := BitVec.eq_of_toNat_eq (by rw [hcp, hzero]; rfl)
      rw [this]
      change _ = (1, [UInt8.ofNat c.toNat])
      rw [hzero]
      rfl
  · by_cases h₂ : c.toNat < 0x800
    · rw [if_neg h₁, if_pos h₂, if_neg (by omega), if_pos (by omega)]
      change _ = ((1 : BitVec 32), [UInt8.ofNat (c.toNat / 64 % 0x20 + 0xc0),
        UInt8.ofNat (c.toNat % 0x40 + 0x80)])
      rw [Nat.mod_eq_of_lt (show c.toNat / 64 < 0x20 by omega), Nat.add_comm 192, Nat.add_comm 128]
    · by_cases h₃ : c.toNat < 0x10000
      · rw [if_neg h₁, if_neg h₂, if_neg (by rw [hsub]; exact hsur), if_pos h₃, if_neg (by omega),
          if_neg (by omega), if_pos (by omega)]
        change _ = ((1 : BitVec 32), [UInt8.ofNat (c.toNat / 4096 % 0x10 + 0xe0),
          UInt8.ofNat (c.toNat / 64 % 0x40 + 0x80), UInt8.ofNat (c.toNat % 0x40 + 0x80)])
        rw [Nat.mod_eq_of_lt (show c.toNat / 4096 < 0x10 by omega), Nat.add_comm 224,
          Nat.add_comm 128, Nat.add_comm 128]
      · rw [if_neg h₁, if_neg h₂, if_neg (by rw [hsub]; exact hsur), if_neg h₃, if_pos hmax,
          if_neg (by omega), if_neg (by omega), if_neg (by omega)]
        change _ = ((1 : BitVec 32), [UInt8.ofNat (c.toNat / 262144 % 0x08 + 0xf0),
          UInt8.ofNat (c.toNat / 4096 % 0x40 + 0x80), UInt8.ofNat (c.toNat / 64 % 0x40 + 0x80),
          UInt8.ofNat (c.toNat % 0x40 + 0x80)])
        rw [Nat.mod_eq_of_lt (show c.toNat / 262144 < 0x08 by omega), Nat.add_comm 240,
          Nat.add_comm 128, Nat.add_comm 128, Nat.add_comm 128]

theorem unicodeToUtf8_surrogate (h : 0xd800 ≤ cp.toNat ∧ cp.toNat < 0xe000) :
    unicodeToUtf8 order cp = (0, []) := by
  have hsub := @toNat_sub_surrogate cp (by omega)
  simp only [unicodeToUtf8]
  rw [if_neg (by omega), if_neg (by omega), if_pos (hsub.mpr h)]

theorem unicodeToUtf8_over (h : 0x110000 ≤ cp.toNat) :
    unicodeToUtf8 order cp = (errorGeneric, []) := by
  have hsub : ¬ (cp - 0xd800).toNat < 0x800 := by
    rw [BitVec.toNat_sub]
    change ¬ (2 ^ 32 - 0xd800 + cp.toNat) % 2 ^ 32 < 0x800
    have := cp.isLt
    omega
  simp only [unicodeToUtf8]
  rw [if_neg (by omega), if_neg (by omega), if_neg hsub, if_neg (by omega), if_neg (by omega)]

theorem unicodeToUtf8_bigEndian (h₁ : 0 < cp.toNat) (h₂ : cp.toNat < 0x80) :
    unicodeToUtf8 .big cp = (1, [0]) := by
  have hzero : cp >>> 24 = 0 := by
    refine BitVec.eq_of_toNat_eq ?_
    rw [BitVec.toNat_ushiftRight, Nat.shiftRight_eq_div_pow, Nat.div_eq_of_lt (by omega)]
    rfl
  simp only [unicodeToUtf8]
  rw [if_pos h₂, firstByte, hzero]
  rfl

theorem Translated.error {ret : ℤ} {out : List UInt8} (hret : ret < 0)
    (hnot : ∀ size c, ¬ NamesChar inp size c) : Translated inp (some (ret, out)) :=
  ⟨ret, out, rfl, by omega, fun size c h => absurd h (hnot size c), fun _ => hret⟩

theorem translated_finish (hn : n ≤ inp.length)
    (hnames : ∀ size c, NamesChar inp size c → size = n ∧ c.toNat = cp.toNat) :
    Translated inp (some (unicodeFinish order cp n)) ↔
      0x110000 ≤ cp.toNat ∨ (∃ c, NamesChar inp n c) ∧
        ¬ (order = .big ∧ 0 < cp.toNat ∧ cp.toNat < 0x80) := by
  have hfinish {ret : BitVec 32} {out : List UInt8} (h : unicodeToUtf8 order cp = (ret, out)) :
      unicodeFinish order cp n = (if ret.msb then ret.toInt else n, out) := by
    rw [unicodeFinish, h]
  by_cases hover : 0x110000 ≤ cp.toNat
  · simp only [hover, true_or, iff_true]
    rw [hfinish (unicodeToUtf8_over hover)]
    refine Translated.error (by rw [if_pos (by decide)]; decide) fun size c hc => ?_
    have := (char_bounds c).1
    have := (hnames size c hc).2
    omega
  simp only [hover, false_or]
  by_cases hsur : 0xd800 ≤ cp.toNat ∧ cp.toNat < 0xe000
  · rw [hfinish (unicodeToUtf8_surrogate hsur)]
    have hnot : ∀ size c, ¬ NamesChar inp size c := by
      intro size c hc
      have := (char_bounds c).2
      rw [(hnames size c hc).2] at this
      exact this hsur
    constructor
    · rintro ⟨ret, out, heq, -, -, herr⟩
      obtain ⟨rfl, -⟩ := Prod.mk.inj (Option.some.inj heq)
      have hneg : (if (0 : BitVec 32).msb then (0 : BitVec 32).toInt else (n : ℤ)) < 0 := herr hnot
      rw [if_neg (by decide)] at hneg
      omega
    · rintro ⟨⟨c, hc⟩, -⟩
      exact absurd hc (hnot n c)
  · obtain ⟨c, hc⟩ := exists_char (by omega) hsur
    constructor
    · rintro ⟨ret, out, heq, -, hok, herr⟩
      by_cases hnone : ∀ size c, ¬ NamesChar inp size c
      · have hneg := herr hnone
        by_cases hbig : order = .big ∧ 0 < cp.toNat ∧ cp.toNat < 0x80
        · obtain ⟨rfl, hpos, hlt⟩ := hbig
          rw [hfinish (unicodeToUtf8_bigEndian hpos hlt)] at heq
          obtain ⟨rfl, -⟩ := Prod.mk.inj (Option.some.inj heq)
          rw [if_neg (by decide)] at hneg
          omega
        · rw [hfinish (unicodeToUtf8_char hc.symm (by rwa [hc]))] at heq
          obtain ⟨rfl, -⟩ := Prod.mk.inj (Option.some.inj heq)
          rw [if_neg (by decide)] at hneg
          omega
      · push Not at hnone
        obtain ⟨size, c', hc'⟩ := hnone
        obtain ⟨rfl, hval⟩ := hnames size c' hc'
        refine ⟨⟨c', hc'⟩, ?_⟩
        rintro ⟨rfl, hpos, hlt⟩
        rw [hfinish (unicodeToUtf8_bigEndian hpos hlt)] at heq
        obtain ⟨-, rfl⟩ := Prod.mk.inj (Option.some.inj heq)
        have hout := (hok _ _ hc').2
        unfold String.utf8EncodeChar at hout
        change [0] = if c'.toNat ≤ 0x7f then [UInt8.ofNat c'.toNat] else _ at hout
        rw [if_pos (by omega)] at hout
        have := congrArg UInt8.toNat (List.cons.inj hout).1
        rw [UInt8.toNat_ofNat'] at this
        change 0 = _ at this
        omega
    · rintro ⟨⟨c', hc'⟩, horder⟩
      have hval := (hnames n c' hc').2
      rw [hfinish (unicodeToUtf8_char hval.symm (by rwa [hval]))]
      refine ⟨_, _, rfl, ?_, fun size d hd => ?_, fun hnone => absurd hc' (hnone n c')⟩
      · rw [if_neg (by decide)]
        omega
      · obtain ⟨rfl, hd⟩ := hnames size d hd
        rw [if_neg (by decide), show d = c' from Char.toNat_inj.mp (hd.trans hval.symm)]
        exact ⟨rfl, rfl⟩

theorem toInt_neg_of_msb (h : cp.msb) : cp.toInt < 0 := by
  rw [BitVec.toInt_eq_msb_cond, if_pos h]
  have := cp.isLt
  omega

theorem msb_of_toNat (h : cp.toNat < 2 ^ 31) : cp.msb = false := by
  rw [BitVec.msb_eq_decide, decide_eq_false_iff_not]
  exact Nat.not_le.mpr h

variable {ds rest : List UInt8}

theorem exists_digits (k : ℕ) (h : k ≤ rest.length) :
    ∃ ds post, ds.length = k ∧ rest = ds ++ post :=
  ⟨rest.take k, rest.drop k, List.length_take_of_le h, (List.take_append_drop k rest).symm⟩

theorem namesChar_long {size : ℕ} (hds : ds.length = 8)
    (h : NamesChar (92 :: 85 :: (ds ++ rest)) size c) :
    size = 10 ∧ hexNumber ds = some c.toNat := by
  generalize hinp : 92 :: 85 :: (ds ++ rest) = inp at h
  cases h with
  | long hlen hnum =>
    rw [List.append_inj_left (by simpa using hinp) (hds.trans hlen.symm)]
    exact ⟨rfl, hnum⟩
  | short => simp at hinp
  | pair => simp at hinp

theorem length_of_namesChar_long {size : ℕ} (h : NamesChar (92 :: 85 :: rest) size c) :
    8 ≤ rest.length := by
  generalize hinp : 92 :: 85 :: rest = inp at h
  cases h with
  | @long ds rest' c hlen hnum =>
    obtain rfl : rest = ds ++ rest' := by simpa using hinp
    rw [List.length_append]
    omega
  | short => simp at hinp
  | pair => simp at hinp

theorem length_of_namesChar_short {size : ℕ} (h : NamesChar (92 :: 117 :: rest) size c) :
    4 ≤ rest.length := by
  generalize hinp : 92 :: 117 :: rest = inp at h
  cases h with
  | long => simp at hinp
  | @short ds rest' c hlen hnum =>
    obtain rfl : rest = ds ++ rest' := by simpa using hinp
    rw [List.length_append]
    omega
  | @pair hs ls rest' hi lo c hlen =>
    obtain rfl : rest = hs ++ 92 :: 117 :: (ls ++ rest') := by simpa using hinp
    rw [List.length_append]
    omega

/-- An escape of four digits names a character by itself or is the first of a pair. -/
theorem namesChar_short {size : ℕ} (hds : ds.length = 4)
    (h : NamesChar (92 :: 117 :: (ds ++ rest)) size c) :
    size = 6 ∧ hexNumber ds = some c.toNat ∨
      size = 12 ∧ ∃ hi lo ls post, hexNumber ds = some hi ∧ 0xd800 ≤ hi ∧ hi < 0xdc00 ∧
        rest = 92 :: 117 :: (ls ++ post) ∧ ls.length = 4 ∧ hexNumber ls = some lo ∧
        0xdc00 ≤ lo ∧ lo < 0xe000 ∧
        c.toNat = 0x10000 + (hi - 0xd800) * 0x400 + (lo - 0xdc00) := by
  generalize hinp : 92 :: 117 :: (ds ++ rest) = inp at h
  cases h with
  | long => simp at hinp
  | short hlen hnum =>
    rw [List.append_inj_left (by simpa using hinp) (hds.trans hlen.symm)]
    exact .inl ⟨rfl, hnum⟩
  | @pair hs ls post hi lo c hlen hhi h₁ h₂ hls hlo h₃ h₄ hc =>
    obtain ⟨rfl, rfl⟩ := List.append_inj (by simpa using hinp) (hds.trans hlen.symm)
    exact .inr ⟨rfl, hi, lo, ls, post, hhi, h₁, h₂, rfl, hls, hlo, h₃, h₄, hc⟩

theorem sizeSub_add (k : ℕ) : sizeSub (n + k) k = n := by
  rw [sizeSub, if_pos (Nat.le_add_left k n), Nat.add_sub_cancel]

theorem long_eq : preludeUnicodeToString order (92 :: 85 :: rest) =
    (unescapeUnicode (92 :: 85 :: rest) 2 rest.length 32).bind fun codepoint =>
      if codepoint.msb then some (codepoint.toInt, [])
      else some (unicodeFinish order codepoint 10) := by
  have hlen : sizeSub (92 :: 85 :: rest : List UInt8).length 2 = rest.length := sizeSub_add 2
  simp only [preludeUnicodeToString, hlen]
  rfl

/-- What is read after the digits of a high surrogate. -/
def afterHigh (order : ByteOrder) (rest : List UInt8) (codepoint : BitVec 32) :
    Option (ℤ × List UInt8) :=
  (unescapeUnicode (92 :: 117 :: rest) 8 (sizeSub (rest.length + 2) 8) 16).bind fun ret =>
    if ret.msb then some (ret.toInt, [])
    else rest[4]?.bind fun a =>
      if a ≠ 92 then
        rest[5]?.bind fun b =>
          if b ≠ 117 then some (errorGeneric.toInt, [])
          else some (unicodeFinish order
            (0x10000 + (codepoint - 0xd800) <<< 10 + (ret - 0xdc00)) 12)
      else some (unicodeFinish order (0x10000 + (codepoint - 0xd800) <<< 10 + (ret - 0xdc00)) 12)

theorem short_eq : preludeUnicodeToString order (92 :: 117 :: rest) =
    (unescapeUnicode (92 :: 117 :: rest) 2 rest.length 16).bind fun codepoint =>
      if codepoint.msb then some (codepoint.toInt, [])
      else if codepoint &&& 0xfc00 = 0xd800 then
        afterHigh order rest codepoint
      else some (unicodeFinish order codepoint 6) := by
  have hlen : sizeSub (92 :: 117 :: rest : List UInt8).length 2 = rest.length := sizeSub_add 2
  simp only [preludeUnicodeToString, hlen]
  rfl

theorem highSurrogate_iff (hcp : cp.toNat < 2 ^ 16) :
    cp &&& 0xfc00 = 0xd800 ↔ 0xd800 ≤ cp.toNat ∧ cp.toNat < 0xdc00 := by
  have hdiv : (cp.toNat &&& 0xfc00) / 1024 = cp.toNat / 1024 % 64 := by
    rw [← Nat.shiftRight_eq_div_pow _ 10, Nat.shiftRight_and_distrib,
      Nat.shiftRight_eq_div_pow _ 10]
    exact Nat.and_two_pow_sub_one_eq_mod _ 6
  have hmod : (cp.toNat &&& 0xfc00) % 1024 = 0 := by
    rw [Nat.and_mod_two_pow (n := 10)]
    exact Nat.and_zero _
  rw [← BitVec.toNat_inj, BitVec.toNat_and]
  change cp.toNat &&& 0xfc00 = 0xd800 ↔ _
  omega

theorem toNat_pair {r : BitVec 32} (h₁ : 0xd800 ≤ cp.toNat) (h₂ : cp.toNat < 0xdc00)
    (hr : r.toNat < 2 ^ 16) : (0x10000 + (cp - 0xd800) <<< 10 + (r - 0xdc00)).toNat =
      0x10000 + (cp.toNat - 0xd800) * 0x400 + r.toNat - 0xdc00 := by
  have hsub : (cp - 0xd800).toNat = cp.toNat - 0xd800 := by
    rw [BitVec.toNat_sub]
    change (2 ^ 32 - 0xd800 + cp.toNat) % 2 ^ 32 = _
    omega
  have hlow : (r - 0xdc00).toNat = (2 ^ 32 - 0xdc00 + r.toNat) % 2 ^ 32 := BitVec.toNat_sub ..
  rw [BitVec.toNat_add, BitVec.toNat_add, BitVec.toNat_shiftLeft, hsub, hlow, Nat.shiftLeft_eq]
  change ((0x10000 + (cp.toNat - 0xd800) * 2 ^ 10 % 2 ^ 32) % 2 ^ 32 + _) % 2 ^ 32 = _
  omega

theorem misread_long (hds : ds.length = 8) : Misread order (92 :: 85 :: (ds ++ rest)) ↔
    ∃ v, hexNumber ds = some v ∧
      (0xd800 ≤ v ∧ v < 0xe000 ∨ order = .big ∧ 0 < v ∧ v < 0x80) := by
  constructor
  · intro h
    generalize hinp : 92 :: 85 :: (ds ++ rest) = inp at h
    cases h with
    | wide hlen hnum h₁ h₂ =>
      rw [List.append_inj_left (by simpa using hinp) (hds.trans hlen.symm)]
      exact ⟨_, hnum, .inl ⟨h₁, h₂⟩⟩
    | low => simp at hinp
    | cut => simp at hinp
    | unpaired => simp at hinp
    | bigEndian horder hname h₁ h₂ =>
      subst hinp
      exact ⟨_, (namesChar_long hds hname).2, .inr ⟨horder, h₁, h₂⟩⟩
  · rintro ⟨v, hnum, ⟨h₁, h₂⟩ | ⟨horder, h₁, h₂⟩⟩
    · exact .wide hds hnum h₁ h₂
    · obtain ⟨c, rfl⟩ := exists_char (v := v) (by omega) (by omega)
      exact .bigEndian horder (.long hds hnum) h₁ h₂

theorem length_of_misread_long (h : Misread order (92 :: 85 :: rest)) : 8 ≤ rest.length := by
  generalize hinp : 92 :: 85 :: rest = inp at h
  cases h with
  | @wide ds rest' v hlen =>
    obtain rfl : rest = ds ++ rest' := by simpa using hinp
    rw [List.length_append]
    omega
  | low => simp at hinp
  | cut => simp at hinp
  | unpaired => simp at hinp
  | bigEndian _ hname =>
    subst hinp
    exact length_of_namesChar_long hname

theorem length_of_misread_short (h : Misread order (92 :: 117 :: rest)) : 4 ≤ rest.length := by
  generalize hinp : 92 :: 117 :: rest = inp at h
  cases h with
  | wide => simp at hinp
  | @low ds rest' v hlen =>
    obtain rfl : rest = ds ++ rest' := by simpa using hinp
    rw [List.length_append]
    omega
  | @cut ds rest' v hlen =>
    obtain rfl : rest = ds ++ rest' := by simpa using hinp
    rw [List.length_append]
    omega
  | @unpaired hs ls rest' a b hi lo hlen =>
    obtain rfl : rest = hs ++ a :: b :: (ls ++ rest') := by simpa using hinp
    rw [List.length_append]
    omega
  | bigEndian _ hname =>
    subst hinp
    exact length_of_namesChar_short hname

/-- What makes an escape of four digits misread. -/
def MisreadAfter (order : ByteOrder) (v : ℕ) (rest : List UInt8) : Prop :=
  0xdc00 ≤ v ∧ v < 0xe000 ∨ order = .big ∧ 0 < v ∧ v < 0x80 ∨
    0xd800 ≤ v ∧ v < 0xdc00 ∧ (rest.length < 2 ∨ ∃ a b ls post lo, rest = a :: b :: (ls ++ post) ∧
      ls.length = 4 ∧ hexNumber ls = some lo ∧ (a = 92 ∨ b = 117) ∧
      ¬ (a = 92 ∧ b = 117 ∧ 0xdc00 ≤ lo ∧ lo < 0xe000) ∧
      0x10000 + (v - 0xd800) * 0x400 + lo < 0x110000 + 0xdc00)

theorem misread_short (hds : ds.length = 4) : Misread order (92 :: 117 :: (ds ++ rest)) ↔
    ∃ v, hexNumber ds = some v ∧ MisreadAfter order v rest := by
  constructor
  · intro h
    generalize hinp : 92 :: 117 :: (ds ++ rest) = inp at h
    cases h with
    | wide => simp at hinp
    | low hlen hnum h₁ h₂ =>
      rw [List.append_inj_left (by simpa using hinp) (hds.trans hlen.symm)]
      exact ⟨_, hnum, .inl ⟨h₁, h₂⟩⟩
    | cut hlen hnum h₁ h₂ hrest =>
      obtain ⟨rfl, rfl⟩ := List.append_inj (by simpa using hinp) (hds.trans hlen.symm)
      exact ⟨_, hnum, .inr (.inr ⟨h₁, h₂, .inl hrest⟩)⟩
    | unpaired hlen hnum h₁ h₂ hls hlo hmark hnot hmax =>
      obtain ⟨rfl, rfl⟩ := List.append_inj (by simpa using hinp) (hds.trans hlen.symm)
      exact ⟨_, hnum, .inr (.inr ⟨h₁, h₂, .inr ⟨_, _, _, _, _, rfl, hls, hlo, hmark, hnot, hmax⟩⟩)⟩
    | bigEndian horder hname h₁ h₂ =>
      subst hinp
      rcases namesChar_short hds hname with ⟨-, hnum⟩ |
        ⟨-, hi, lo, -, -, -, -, -, -, -, -, -, -, hc⟩
      · exact ⟨_, hnum, .inr (.inl ⟨horder, h₁, h₂⟩)⟩
      · omega
  · rintro ⟨v, hnum, ⟨h₁, h₂⟩ | ⟨horder, h₁, h₂⟩ |
      ⟨h₁, h₂, hrest | ⟨a, b, ls, post, lo, rfl, hls, hlo, hmark, hnot, hmax⟩⟩⟩
    · exact .low hds hnum h₁ h₂
    · obtain ⟨c, rfl⟩ := exists_char (v := v) (by omega) (by omega)
      exact .bigEndian horder (.short hds hnum) h₁ h₂
    · exact .cut hds hnum h₁ h₂ hrest
    · exact .unpaired hds hnum h₁ h₂ hls hlo hmark hnot hmax

theorem translated_long : Translated (92 :: 85 :: rest) (preludeUnicodeToString order
    (92 :: 85 :: rest)) ↔ ¬ Misread order (92 :: 85 :: rest) := by
  rw [long_eq]
  by_cases hlen : rest.length < 8
  · rw [unescapeUnicode_short (by omega)]
    refine iff_of_true (Translated.error (toInt_neg_of_msb (by decide)) fun size c hc => ?_)
      fun hmis => ?_
    · exact absurd (length_of_namesChar_long hc) (by omega)
    · exact absurd (length_of_misread_long hmis) (by omega)
  obtain ⟨ds, post, hds, rfl⟩ := exists_digits 8 (Nat.not_lt.mp hlen)
  obtain ⟨r, hr, hsome, hnone⟩ := unescapeUnicode_spec (List.ne_nil_of_length_pos (by omega)) hds.le
    (show List.drop 2 (92 :: 85 :: (ds ++ post)) = ds ++ post from rfl)
    (show ds.length ≤ (ds ++ post).length by rw [List.length_append]; omega)
  rw [hds] at hr
  rw [hr, misread_long hds]
  change Translated _ (if r.msb then _ else _) ↔ _
  cases hnum : hexNumber ds with
  | none =>
    rw [if_pos (hnone hnum)]
    refine iff_of_true
      (Translated.error (toInt_neg_of_msb (hnone hnum)) fun size c hc => ?_) (by simp)
    rw [(namesChar_long hds hc).2] at hnum
    cases hnum
  | some v =>
    obtain rfl := hsome v hnum
    have hnames : ∀ size c, NamesChar (92 :: 85 :: (ds ++ post)) size c →
        size = 10 ∧ c.toNat = r.toNat := by
      intro size c hc
      obtain ⟨hsize, hval⟩ := namesChar_long hds hc
      exact ⟨hsize, Option.some.inj (hval.symm.trans hnum)⟩
    simp only [Option.some.injEq, exists_eq_left']
    split_ifs with hmsb
    · have hbig : 2 ^ 31 ≤ r.toNat := by
        rw [BitVec.msb_eq_decide, decide_eq_true_eq] at hmsb
        exact hmsb
      refine iff_of_true (Translated.error (toInt_neg_of_msb hmsb) fun size c hc => ?_) (by omega)
      have := (char_bounds c).1
      have := (hnames size c hc).2
      omega
    · rw [translated_finish (by simp only [List.length_cons, List.length_append]; omega) hnames]
      by_cases hchar : r.toNat < 0x110000 ∧ ¬ (0xd800 ≤ r.toNat ∧ r.toNat < 0xe000)
      · obtain ⟨c, hc⟩ := exists_char hchar.1 hchar.2
        have hname : ∃ c, NamesChar (92 :: 85 :: (ds ++ post)) 10 c :=
          ⟨c, .long hds (by rw [hnum, hc])⟩
        simp only [hname, true_and, Nat.not_le.mpr hchar.1, hchar.2, false_or]
      · have hname : ¬ ∃ c, NamesChar (92 :: 85 :: (ds ++ post)) 10 c := by
          rintro ⟨c, hc⟩
          have := char_bounds c
          rw [(hnames 10 c hc).2] at this
          exact hchar this
        simp only [hname, false_and, or_false]
        constructor
        · rintro hover (h | ⟨-, -, h⟩) <;> omega
        · intro h
          by_contra hle
          exact h (.inl (by omega))

/-- After a high surrogate, only what makes up a pair with it is a name. -/
theorem namesChar_high {r : ℕ} {size : ℕ} (hds : ds.length = 4) (hnum : hexNumber ds = some r)
    (hhigh : 0xd800 ≤ r ∧ r < 0xdc00) (h : NamesChar (92 :: 117 :: (ds ++ rest)) size c) :
    size = 12 ∧ ∃ lo ls post, rest = 92 :: 117 :: (ls ++ post) ∧ ls.length = 4 ∧
      hexNumber ls = some lo ∧ 0xdc00 ≤ lo ∧ lo < 0xe000 ∧
      c.toNat = 0x10000 + (r - 0xd800) * 0x400 + (lo - 0xdc00) := by
  rcases namesChar_short hds h with ⟨-, hval⟩ |
    ⟨hsize, hi, lo, ls, post, hval, -, -, hrest, hls, hlo, h₁, h₂, hc⟩
  · obtain rfl := Option.some.inj (hval.symm.trans hnum)
    exact absurd (by omega) (char_bounds c).2
  · obtain rfl := Option.some.inj (hval.symm.trans hnum)
    exact ⟨hsize, lo, ls, post, hrest, hls, hlo, h₁, h₂, hc⟩

theorem unescapeUnicode_outside (h : ds.length < 8) (hlen : 4 ≤ n) :
    unescapeUnicode ds 8 n 16 = none := by
  have hnone : ds[8]? = none := List.getElem?_eq_none (by omega)
  rw [unescapeUnicode]
  simp only [show ¬ 16 / 4 > n by omega, if_false]
  rw [unescapeLoop, hnone]
  rfl

theorem translated_high (hds : ds.length = 4) (hnum : hexNumber ds = some cp.toNat)
    (hhigh : 0xd800 ≤ cp.toNat ∧ cp.toNat < 0xdc00) :
    Translated (92 :: 117 :: (ds ++ rest)) (afterHigh order (ds ++ rest) cp) ↔
      ¬ MisreadAfter order cp.toNat rest := by
  have hmis : MisreadAfter order cp.toNat rest ↔ (rest.length < 2 ∨ ∃ a b ls post lo,
      rest = a :: b :: (ls ++ post) ∧ ls.length = 4 ∧ hexNumber ls = some lo ∧ (a = 92 ∨ b = 117) ∧
      ¬ (a = 92 ∧ b = 117 ∧ 0xdc00 ≤ lo ∧ lo < 0xe000) ∧
      0x10000 + (cp.toNat - 0xd800) * 0x400 + lo < 0x110000 + 0xdc00) := by
    unfold MisreadAfter
    constructor
    · rintro (h | h | ⟨-, -, h⟩)
      · omega
      · omega
      · exact h
    · exact fun h => .inr (.inr ⟨hhigh.1, hhigh.2, h⟩)
  have hlength : (ds ++ rest).length = rest.length + 4 := by rw [List.length_append, hds, add_comm]
  rw [hmis, afterHigh, hlength]
  clear hmis
  by_cases hcut : rest.length < 2
  · have hsize : 4 ≤ sizeSub (rest.length + 4 + 2) 8 := by
      rw [sizeSub, if_neg (by omega)]
      omega
    rw [unescapeUnicode_outside (by simp only [List.length_cons, hlength]; omega) hsize]
    refine iff_of_false ?_ (not_not.mpr (.inl hcut))
    rintro ⟨ret, out, heq, -⟩
    cases heq
  have hsize : sizeSub (rest.length + 4 + 2) 8 = rest.length - 2 := by
    rw [sizeSub, if_pos (by omega)]
    omega
  rw [hsize]
  by_cases hlen : rest.length < 6
  · rw [unescapeUnicode_short (by omega)]
    refine iff_of_true (Translated.error (toInt_neg_of_msb (by decide)) fun size c hc => ?_) ?_
    · obtain ⟨-, lo, ls, post, rfl, hls, -⟩ := namesChar_high hds hnum hhigh hc
      simp only [List.length_cons, List.length_append] at hlen
      omega
    · rintro (h | ⟨a, b, ls, post, lo, rfl, hls, -⟩)
      · exact hcut h
      · simp only [List.length_cons, List.length_append] at hlen
        omega
  obtain ⟨a, b, tail, rfl⟩ : ∃ a b tail, rest = a :: b :: tail := by
    match rest, hcut with
    | a :: b :: tail, _ => exact ⟨a, b, tail, rfl⟩
    | [_], h => exact absurd (by simp) h
    | [], h => exact absurd (by simp) h
  obtain ⟨ls, post, hls, rfl⟩ := exists_digits 4
    (show 4 ≤ tail.length by simp only [List.length_cons] at hlen; omega)
  have hdrop : (92 :: 117 :: (ds ++ a :: b :: (ls ++ post))).drop 8 = ls ++ post := by
    have hsplit : 92 :: 117 :: (ds ++ a :: b :: (ls ++ post)) =
        (92 :: 117 :: (ds ++ [a, b])) ++ (ls ++ post) := by
      simp
    rw [hsplit]
    exact List.drop_left' (by simp [hds])
  obtain ⟨r, hr, hsome, hnone⟩ := unescapeUnicode_spec (List.ne_nil_of_length_pos (by omega))
    (by omega) hdrop (show ls.length ≤ (a :: b :: (ls ++ post)).length - 2 by
      simp only [List.length_cons, List.length_append]
      omega)
  rw [hls] at hr
  rw [hr]
  change Translated _ (if r.msb then _ else _) ↔ _
  have hinj {a' b' : UInt8} {ls' post' : List UInt8}
      (h : a :: b :: (ls ++ post) = a' :: b' :: (ls' ++ post')) (hls' : ls'.length = 4) :
      a = a' ∧ b = b' ∧ ls = ls' := by
    obtain ⟨ha, h⟩ := List.cons.inj h
    obtain ⟨hb, h⟩ := List.cons.inj h
    exact ⟨ha, hb, List.append_inj_left h (hls.trans hls'.symm)⟩
  cases hlo : hexNumber ls with
  | none =>
    rw [if_pos (hnone hlo)]
    refine iff_of_true (Translated.error (toInt_neg_of_msb (hnone hlo)) fun size c hc => ?_) ?_
    · obtain ⟨-, lo, ls', post', heq, hls', hval, -⟩ := namesChar_high hds hnum hhigh hc
      rw [← (hinj heq hls').2.2, hlo] at hval
      cases hval
    · rintro (h | ⟨a', b', ls', post', lo, heq, hls', hval, -⟩)
      · exact hcut h
      · rw [← (hinj heq hls').2.2, hlo] at hval
        cases hval
  | some lo =>
    obtain rfl := hsome lo hlo
    have hlt := hexNumber_lt hlo
    rw [hls] at hlt
    rw [if_neg (by rw [msb_of_toNat (by omega)]; decide)]
    have hmis : (¬ ((a :: b :: (ls ++ post)).length < 2 ∨ ∃ a' b' ls' post' lo,
        a :: b :: (ls ++ post) = a' :: b' :: (ls' ++ post') ∧ ls'.length = 4 ∧
        hexNumber ls' = some lo ∧ (a' = 92 ∨ b' = 117) ∧
        ¬ (a' = 92 ∧ b' = 117 ∧ 0xdc00 ≤ lo ∧ lo < 0xe000) ∧
        0x10000 + (cp.toNat - 0xd800) * 0x400 + lo < 0x110000 + 0xdc00)) ↔
        (a = 92 ∨ b = 117 → (a = 92 ∧ b = 117 ∧ 0xdc00 ≤ r.toNat ∧ r.toNat < 0xe000) ∨
          0x110000 + 0xdc00 ≤ 0x10000 + (cp.toNat - 0xd800) * 0x400 + r.toNat) := by
      constructor
      · intro h hmark
        by_contra hnot
        rw [not_or] at hnot
        exact h (.inr ⟨a, b, ls, post, r.toNat, rfl, hls, hlo, hmark, hnot.1, Nat.not_le.mp hnot.2⟩)
      · rintro h (h' | ⟨a', b', ls', post', lo, heq, hls', hval, hmark, hnot, hmax⟩)
        · exact hcut h'
        · obtain ⟨rfl, rfl, rfl⟩ := hinj heq hls'
          obtain rfl := Option.some.inj (hval.symm.trans hlo)
          rcases h hmark with h | h
          · exact hnot h
          · omega
    rw [hmis]
    clear hmis
    have ha : (ds ++ a :: b :: (ls ++ post))[4]? = some a := by
      rw [List.getElem?_append_right (by omega), hds]
      rfl
    have hb : (ds ++ a :: b :: (ls ++ post))[5]? = some b := by
      rw [List.getElem?_append_right (by omega), hds]
      rfl
    have hpair := toNat_pair (r := r) hhigh.1 hhigh.2 (by omega)
    have hnames : ∀ size c, NamesChar (92 :: 117 :: (ds ++ a :: b :: (ls ++ post))) size c →
        (a = 92 ∧ b = 117 ∧ 0xdc00 ≤ r.toNat ∧ r.toNat < 0xe000) ∧ size = 12 ∧
          c.toNat = (0x10000 + (cp - 0xd800) <<< 10 + (r - 0xdc00)).toNat := by
      intro size c hc
      obtain ⟨hsize, lo, ls', post', heq, hls', hval, h₁, h₂, hc⟩ :=
        namesChar_high hds hnum hhigh hc
      obtain ⟨ha, hb, rfl⟩ := hinj heq hls'
      obtain rfl := Option.some.inj (hval.symm.trans hlo)
      exact ⟨⟨ha, hb, h₁, h₂⟩, hsize, by rw [hpair]; omega⟩
    have hfinish : Translated (92 :: 117 :: (ds ++ a :: b :: (ls ++ post)))
        (some (unicodeFinish order (0x10000 + (cp - 0xd800) <<< 10 + (r - 0xdc00)) 12)) ↔
        (a = 92 ∧ b = 117 ∧ 0xdc00 ≤ r.toNat ∧ r.toNat < 0xe000) ∨
          0x110000 + 0xdc00 ≤ 0x10000 + (cp.toNat - 0xd800) * 0x400 + r.toNat := by
      rw [translated_finish (by simp only [List.length_cons, List.length_append]; omega)
        fun size c hc => (hnames size c hc).2, hpair]
      constructor
      · rintro (h | ⟨⟨c, hc⟩, -⟩)
        · exact .inr (by omega)
        · exact .inl (hnames 12 c hc).1
      · rintro (⟨rfl, rfl, h₁, h₂⟩ | h)
        · obtain ⟨c, hc⟩ := exists_char
            (v := 0x10000 + (cp.toNat - 0xd800) * 0x400 + (r.toNat - 0xdc00)) (by omega) (by omega)
          exact .inr ⟨⟨c, .pair hds hnum hhigh.1 hhigh.2 hls hlo h₁ h₂ hc⟩, by omega⟩
        · exact .inl (by omega)
    rw [ha]
    change Translated _ (if a ≠ 92 then _ else _) ↔ _
    by_cases ha' : a = 92
    · rw [if_neg (not_not.mpr ha'), hfinish]
      simp only [ha', true_or, forall_const]
    · rw [if_pos ha', hb]
      change Translated _ (if b ≠ 117 then _ else _) ↔ _
      by_cases hb' : b = 117
      · rw [if_neg (not_not.mpr hb'), hfinish]
        simp only [hb', or_true, forall_const]
      · rw [if_pos hb']
        refine iff_of_true (Translated.error (by decide) fun size c hc => ?_) fun h => ?_
        · exact ha' (hnames size c hc).1.1
        · exact absurd h (by simp [ha', hb'])

theorem translated_short : Translated (92 :: 117 :: rest) (preludeUnicodeToString order
    (92 :: 117 :: rest)) ↔ ¬ Misread order (92 :: 117 :: rest) := by
  rw [short_eq]
  by_cases hlen : rest.length < 4
  · rw [unescapeUnicode_short (by omega)]
    refine iff_of_true (Translated.error (toInt_neg_of_msb (by decide)) fun size c hc => ?_)
      fun hmis => ?_
    · exact absurd (length_of_namesChar_short hc) (by omega)
    · exact absurd (length_of_misread_short hmis) (by omega)
  obtain ⟨ds, post, hds, rfl⟩ := exists_digits 4 (Nat.not_lt.mp hlen)
  obtain ⟨r, hr, hsome, hnone⟩ := unescapeUnicode_spec
    (List.ne_nil_of_length_pos (by omega)) (by omega)
    (show List.drop 2 (92 :: 117 :: (ds ++ post)) = ds ++ post from rfl)
    (show ds.length ≤ (ds ++ post).length by rw [List.length_append]; omega)
  rw [hds] at hr
  rw [hr, misread_short hds]
  change Translated _ (if r.msb then _ else _) ↔ _
  cases hnum : hexNumber ds with
  | none =>
    rw [if_pos (hnone hnum)]
    refine iff_of_true
      (Translated.error (toInt_neg_of_msb (hnone hnum)) fun size c hc => ?_) (by simp)
    rcases namesChar_short hds hc with ⟨-, h⟩ | ⟨-, hi, -, -, -, h, -⟩ <;>
    · rw [h] at hnum
      cases hnum
  | some v =>
    obtain rfl := hsome v hnum
    have hlt := hexNumber_lt hnum
    rw [hds] at hlt
    simp only [Option.some.injEq, exists_eq_left']
    rw [if_neg (by rw [msb_of_toNat (by omega)]; decide)]
    by_cases hhigh : 0xd800 ≤ r.toNat ∧ r.toNat < 0xdc00
    · rw [if_pos ((highSurrogate_iff (by omega)).mpr hhigh)]
      exact translated_high hds hnum hhigh
    · rw [if_neg fun h => hhigh ((highSurrogate_iff (by omega)).mp h)]
      have hnames : ∀ size c, NamesChar (92 :: 117 :: (ds ++ post)) size c →
          size = 6 ∧ c.toNat = r.toNat := by
        intro size c hc
        rcases namesChar_short hds hc with ⟨hsize, hval⟩ | ⟨-, hi, -, -, -, hval, h₁, h₂, -⟩
        · exact ⟨hsize, Option.some.inj (hval.symm.trans hnum)⟩
        · obtain rfl := Option.some.inj (hval.symm.trans hnum)
          exact absurd ⟨h₁, h₂⟩ hhigh
      rw [translated_finish (by simp only [List.length_cons, List.length_append]; omega) hnames]
      have hmis : MisreadAfter order r.toNat post ↔
          0xdc00 ≤ r.toNat ∧ r.toNat < 0xe000 ∨ order = .big ∧ 0 < r.toNat ∧ r.toNat < 0x80 := by
        unfold MisreadAfter
        constructor
        · rintro (h | h | ⟨h₁, h₂, -⟩)
          · exact .inl h
          · exact .inr h
          · exact absurd ⟨h₁, h₂⟩ hhigh
        · rintro (h | h)
          · exact .inl h
          · exact .inr (.inl h)
      rw [hmis]
      by_cases hlow : 0xdc00 ≤ r.toNat ∧ r.toNat < 0xe000
      · have hname : ¬ ∃ c, NamesChar (92 :: 117 :: (ds ++ post)) 6 c := by
          rintro ⟨c, hc⟩
          have := char_bounds c
          rw [(hnames 6 c hc).2] at this
          omega
        simp only [hname, hlow, false_and, or_false, and_self, true_or, not_true, iff_false]
        omega
      · obtain ⟨c, hc⟩ := exists_char (v := r.toNat) (by omega) (by omega)
        have hname : ∃ c, NamesChar (92 :: 117 :: (ds ++ post)) 6 c :=
          ⟨c, .short hds (by rw [hnum, hc])⟩
        simp only [hname, hlow, true_and, false_or, or_iff_right_iff_imp]
        omega

end

/-- An input that starts like an escape is translated exactly if it is not misread. -/
theorem unicode_escape_iff (order : ByteOrder) (inp : List UInt8) (hstart : StartsEscape inp) :
    Translated inp (preludeUnicodeToString order inp) ↔ ¬ Misread order inp := by
  obtain ⟨rest, rfl | rfl⟩ := hstart
  · exact translated_long
  · exact translated_short

theorem unicode_escape_pair : Translated (ascii "\\ud83d\\ude00")
    (preludeUnicodeToString .little (ascii "\\ud83d\\ude00")) := by
  refine (unicode_escape_iff .little _ ⟨_, .inr rfl⟩).mpr fun h => ?_
  obtain ⟨v, hv, h⟩ := (@misread_short .little (ascii "d83d") (ascii "\\ude00") rfl).mp h
  obtain rfl : v = 0xd83d := Option.some.inj (hv.symm.trans rfl)
  rcases h with h | h | ⟨-, -, h | ⟨a, b, ls, post, lo, heq, hls, hlo, -, hnot, -⟩⟩
  · omega
  · exact absurd h.2.2 (by decide)
  · exact absurd h (by decide)
  · obtain ⟨ha, heq⟩ := List.cons.inj heq
    obtain ⟨hb, heq⟩ := List.cons.inj heq
    obtain ⟨rfl, -⟩ := @List.append_inj _ (ascii "de00") ls [] post heq hls.symm
    obtain rfl : lo = 0xde00 := Option.some.inj (hlo.symm.trans rfl)
    exact hnot ⟨ha.symm, hb.symm, by decide, by decide⟩

/-- A high surrogate at the end of the input is read past that end. -/
theorem unicode_escape_cut : ¬ ∀ (order : ByteOrder) (inp : List UInt8), StartsEscape inp →
    Translated inp (preludeUnicodeToString order inp) := by
  intro h
  exact translated_short.mp (h .little (ascii "\\ud800") ⟨_, .inr rfl⟩)
    (@Misread.cut .little (ascii "d800") [] 0xd800 rfl rfl (by decide) (by decide) (by decide))

end LibPrelude
