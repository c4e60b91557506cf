import LibPrelude.String.Buffer

/-! # Appending to a string

Both ways to append grow the buffer at most once, and then the text fits. A
refused request leaves the text as it was, except that a text printed in part
may have overwritten the terminator.
-/

namespace LibPrelude

variable {m m' : ByteMemory} {s s' : StringObject} {c str text : List UInt8} {n q len : ℕ}
  {k : ℕ} {p : Ptr}

theorem sizeMinus_of_le {a b : ℕ} (h : b ≤ a) (ha : a < sizeRange) : sizeMinus a b = a - b := by
  unfold sizeMinus
  rw [show a + sizeRange - b = a - b + sizeRange by omega, Nat.add_mod_right,
    Nat.mod_eq_of_lt (by omega)]

theorem sizeMinus_of_lt {a b : ℕ} (h : a < b) (hb : b < sizeRange) :
    sizeMinus a b = sizeRange - (b - a) := by
  unfold sizeMinus
  rw [Nat.mod_eq_of_lt (by omega)]
  omega

theorem nearestDouble_of_lt {n : ℕ} (h : n < 2 ^ 53) : nearestDouble n = n := if_pos h

theorem le_two_mul_nearestDouble (n : ℕ) : n ≤ 2 * nearestDouble n := by
  unfold nearestDouble
  split
  · omega
  · rename_i hn
    have hne : n ≠ 0 := by omega
    have hunit : 2 ^ (n.log2 - 52) ≤ n :=
      (Nat.pow_le_pow_right (by omega) (Nat.sub_le _ _)).trans (Nat.log2_self_le hne)
    have hpos : 0 < 2 ^ (n.log2 - 52) := by positivity
    have hdiv := Nat.div_add_mod n (2 ^ (n.log2 - 52))
    have hmod := Nat.mod_lt n hpos
    have hq : 1 ≤ n / 2 ^ (n.log2 - 52) := (Nat.one_le_div_iff hpos).mpr hunit
    have hle : 2 ^ (n.log2 - 52) ≤ n / 2 ^ (n.log2 - 52) * 2 ^ (n.log2 - 52) :=
      Nat.le_mul_of_pos_left _ hq
    rw [Nat.mul_comm] at hdiv
    dsimp only
    split
    · rw [Nat.add_mul]
      omega
    · omega

theorem take_of_take {xs ys zs : List UInt8} {n k : ℕ} (h : xs.take (n + k) = ys ++ zs)
    (hy : ys.length = n) : xs.take n = ys := by
  have hmin : (xs.take (n + k)).take n = xs.take n := by
    rw [List.take_take, Nat.min_eq_left (Nat.le_add_right n k)]
  rw [← hmin, h, List.take_left' hy]

namespace StringObject

def grownSize (s : StringObject) (q : ℕ) : ℕ :=
  s.size + max (q - (s.size - s.index)) (3 * s.size / 2)

theorem Text.index_le (h : s.Text m c) : s.index ≤ s.size := by
  cases hp : s.data with
  | none =>
    rcases h.nil hp with ⟨-, hi, -⟩
    omega
  | some p =>
    rcases h.buffer hp with ⟨-, -, -, hlt, -⟩
    omega

theorem Text.size_le (h : s.Text m c) (hsmall : m.Small) (hl : m.limit ≤ addressSpace) :
    s.size ≤ addressSpace := by
  cases hp : s.data with
  | none =>
    rw [(h.nil hp).2.2]
    omega
  | some p =>
    rcases h.buffer hp with ⟨bytes, hb, hsize, -⟩
    have := hsmall _ _ hb
    omega

theorem growth_eq (hi : s.index ≤ s.size) (hs : s.size ≤ addressSpace) (hn : q ≠ 0)
    (hle : q ≤ addressSpace + 1) (hroom : s.size - s.index ≤ q) :
    s.growth q = some (max (q - (s.size - s.index)) (3 * s.size / 2)) := by
  have haddr : addressSpace = 2 ^ 48 := rfl
  have hrange : sizeRange = 2 ^ 64 := rfl
  unfold growth
  rw [if_neg hn, sizeMinus_of_le hi (by omega), sizeMinus_of_le hroom (by omega),
    nearestDouble_of_lt (by omega)]
  dsimp only
  split
  · rename_i hlt
    rw [if_pos (by omega), Nat.max_eq_left (by omega)]
  · rename_i hlt
    rw [if_pos (by omega), Nat.max_eq_right (by omega)]

theorem growth_pos (hn : q ≠ 0) (hroom : s.size - s.index ≤ q) :
    0 < max (q - (s.size - s.index)) (3 * s.size / 2) := by
  rcases Nat.eq_zero_or_pos s.size with hz | hz
  · exact lt_max_of_lt_left (by omega)
  · exact lt_max_of_lt_right (by omega)

theorem growThen_ok {next : ByteMemory → StringObject → Option StringCallResult}
    {r : StringCallResult} (hr : s.allocateMoreChunkIfNeeded m q = some r)
    (hret : r.ret = .ok n) : s.growThen m q next = next r.memory r.object := by
  rw [growThen, hr, Option.bind_eq_bind, Option.bind_some, hret]

theorem growThen_error {next : ByteMemory → StringObject → Option StringCallResult}
    {r : StringCallResult} {e : ErrorCode} (hr : s.allocateMoreChunkIfNeeded m q = some r)
    (hret : r.ret = .error e) : s.growThen m q next = some r := by
  rw [growThen, hr, Option.bind_eq_bind, Option.bind_some, hret]
  rfl

theorem ncat_fits (h : s.Text m c) (ho : s.ownData) (hs : s.size < sizeRange)
    (hroom : len < s.size - s.index) (hlen : len ≤ str.length) :
    ∃ r, s.ncat (k + 1) m str len = some r ∧ s.Moves m r.memory r.object ∧ r.ret = .ok len ∧
      r.object.Holds r.memory (c ++ str.take len) := by
  cases hp : s.data with
  | none =>
    have := (h.nil hp).2.2
    omega
  | some p =>
    have hlen' : (str.take len).length = len := by simp; omega
    have hload : Bytes.load str 0 len = some (str.take len) := by
      rw [Bytes.load_eq_some (by omega), List.drop_zero]
    rcases h.store ho hp (y := str.take len ++ [0]) (by simp; omega) with
      ⟨m', bytes', hm', hmoves, hgr, hb', hsize', htake⟩
    have hoff := (h.buffer hp).choose_spec.2.2.2.2 ho
    have hpos : s.position s.index = some ⟨p.block, p.offset + s.index⟩ := by
      rw [position, hp, Option.map_some]
    unfold ncat
    rw [if_pos ⟨ho, by rw [sizeMinus_of_le h.index_le hs]; exact hroom⟩]
    simp only [hload, hpos, hm', Option.bind_eq_bind, Option.bind_some, Option.pure_def]
    rw [List.length_append, hlen', List.length_singleton, ← List.append_assoc] at htake
    have htext : ({ s with index := s.index + len } : StringObject).Text m'
        (c ++ str.take len) := by
      unfold Text
      simp only [hp]
      refine ⟨bytes', hb', by omega, by omega, ?_, fun _ => hoff⟩
      rw [hoff, List.drop_zero]
      exact take_of_take (k := 1) htake (by rw [List.length_append, h.length, hlen'])
    refine ⟨_, rfl, hmoves.trans (.of_bytesAt rfl rfl rfl rfl), rfl, htext, ?_⟩
    refine (htext.ended_iff hp hb').mpr ?_
    rw [hoff, List.drop_zero]
    exact htake

/-- The text fits once the buffer has grown. -/
theorem ncat_spec (h : s.Holds m c) (hsmall : m.Small) (hl : m.limit ≤ addressSpace)
    (hlen : len ≤ str.length) (hstr : str.length ≤ addressSpace)
    (hroom : s.ownData = false → s.size - s.index ≤ len + 1) :
    ∃ r, s.ncat (k + 2) m str len = some r ∧ s.Moves m r.memory r.object ∧
      ((r.ret = .error .enomem ∧ r.object = s ∧ r.memory.bytesAt = m.bytesAt ∧
          (m.request (s.grownSize (len + 1))).2 = false) ∨
        (r.ret = .ok len ∧ r.object.Holds r.memory (c ++ str.take len))) := by
  have haddr : addressSpace = 2 ^ 48 := rfl
  have hrange : sizeRange = 2 ^ 64 := rfl
  have hsize := h.1.size_le hsmall hl
  by_cases hfit : s.ownData ∧ len < s.size - s.index
  · rcases ncat_fits (k := k + 1) h.1 hfit.1 (by omega) hfit.2 hlen with
      ⟨r, hr, hmoves, hret, hholds⟩
    exact ⟨r, hr, hmoves, .inr ⟨hret, hholds⟩⟩
  · have hle : s.size - s.index ≤ len + 1 := by
      cases ho : s.ownData with
      | false => exact hroom ho
      | true =>
        have : ¬len < s.size - s.index := fun hlt => hfit ⟨ho, hlt⟩
        omega
    have hg := growth_eq (q := len + 1) h.1.index_le hsize (by omega) (by omega) hle
    have hpos := growth_pos (s := s) (q := len + 1) (by omega) hle
    rcases allocateMoreChunkIfNeeded_spec h.1 (fun _ => h.2) hg hpos (by omega) with
      ⟨r, hr, hmoves, hgr, ⟨hret, hobj, hbytes, hreq⟩ | ⟨hret, hreq, hgrown⟩⟩
    · refine ⟨r, ?_, hmoves, .inl ⟨hret, hobj, hbytes, hreq⟩⟩
      unfold ncat
      rw [if_neg (by rwa [sizeMinus_of_le h.1.index_le (by omega)]), if_neg (by omega),
        growThen_error hr hret]
    · have hsize' := hgrown.size_eq
      have hindex := hgrown.index_eq
      have hle' := h.1.index_le
      rcases ncat_fits (k := k) hgrown.text hgrown.owned
        (by omega) (by omega) hlen with ⟨r', hr', hmoves', hret', hholds⟩
      refine ⟨r', ?_, hmoves.trans hmoves', .inr ⟨hret', hholds⟩⟩
      unfold ncat
      rw [if_neg (by rwa [sizeMinus_of_le h.1.index_le (by omega)]), if_neg (by omega),
        growThen_ok hr hret]
      exact hr'

/-- A borrowed string with more room than the text needs asks for a growth below zero. -/
theorem ncat_underflow (k : ℕ) (str : List UInt8) (h : s.Holds m c) (hsmall : m.Small)
    (hl : m.limit ≤ addressSpace)
    (ho : s.ownData = false) (hroom : len + 1 < s.size - s.index) :
    s.ncat (k + 1) m str len = none ∧ s.growth (len + 1) = none ∨
      ∃ r e, s.ncat (k + 1) m str len = some r ∧ s.Moves m r.memory r.object ∧
        r.ret = .error e ∧ r.object = s ∧ r.memory.bytesAt = m.bytesAt := by
  have haddr : addressSpace = 2 ^ 48 := rfl
  have hrange : sizeRange = 2 ^ 64 := rfl
  have hsize := h.1.size_le hsmall hl
  have hrun : s.ncat (k + 1) m str len =
      s.growThen m (len + 1) fun m s => ncat k m s str len := by
    rw [ncat, if_neg (by simp [ho]), if_neg (by omega)]
  rw [hrun, growThen]
  unfold allocateMoreChunkIfNeeded
  cases hg : s.growth (len + 1) with
  | none => exact .inl ⟨rfl, rfl⟩
  | some grow =>
    right
    have hbig : sizeRange / 4 ≤ grow := by
      have hmissing := le_two_mul_nearestDouble (sizeMinus (len + 1) (s.size - s.index))
      rw [sizeMinus_of_lt hroom (by omega)] at hmissing
      unfold growth at hg
      rw [if_neg (by omega), sizeMinus_of_le h.1.index_le (by omega),
        sizeMinus_of_lt hroom (by omega)] at hg
      have hlt : 3 * s.size <
          2 * nearestDouble (sizeRange - (s.size - s.index - (len + 1))) := by omega
      dsimp only at hg
      rw [if_pos hlt] at hg
      split at hg
      · rw [Option.some.injEq] at hg
        omega
      · cases hg
    by_cases hwrap : sizeRange ≤ s.size + grow
    · simp only [Option.bind_eq_bind, Option.bind_some, if_pos hwrap, Option.pure_def]
      exact ⟨_, _, rfl, .refl _ _, rfl, rfl, rfl⟩
    · simp only [Option.bind_eq_bind, Option.bind_some, if_neg hwrap, ho, Bool.false_eq_true,
        if_false, makeStringOwn]
      rcases hm : m.malloc (s.size + grow) with ⟨m', _ | b⟩
      · rcases Memory.malloc_none hm with ⟨hbytes, hlim, hgr, -⟩
        exact ⟨_, _, rfl, .of_bytesAt hbytes hlim rfl rfl, rfl, rfl, hbytes⟩
      · have := (Memory.malloc_some hm).2.2.1
        omega

/-- Printing stores what fits, and the terminator. -/
theorem vsnprintf_spec (h : s.Text m c) (ho : s.ownData) (htext : text.length < intMax) :
    ∃ m', vsnprintf m (s.position s.index) (s.size - s.index) text = some (m', some text.length) ∧
      s.Moves m m' s ∧ m'.grants = m.grants ∧ s.Text m' c ∧
      (text.length < s.size - s.index →
        ({ s with index := s.index + text.length } : StringObject).Holds m' (c ++ text)) ∧
      (s.size - s.index ≤ text.length →
        (s.Ended m' ↔ s.size - s.index < 2 ∨ text.head? = some 0)) := by
  unfold vsnprintf
  rw [if_pos (by omega : text.length ≤ intMax)]
  rcases Option.eq_none_or_eq_some s.data with hp | ⟨p, hp⟩
  · rcases h.nil hp with ⟨-, hi, hs⟩
    refine ⟨m, ?_, .refl m s, rfl, h, by omega, ?_⟩
    · simp [hs]
    · intro _
      refine ⟨fun _ => .inl (by omega), fun _ q hq => ?_⟩
      rw [hp] at hq
      cases hq
  · rcases h.buffer hp with ⟨-, -, -, hlt, -, hoff⟩
    have hcut : (text.take (s.size - s.index - 1)).length ≤ s.size - s.index - 1 := by
      simp
    rcases h.store ho hp (y := text.take (s.size - s.index - 1) ++ [0]) (by simp; omega) with
      ⟨m', bytes', hm', hmoves, hgr, hb', hsize', htake⟩
    have hpos : s.position s.index = some ⟨p.block, p.offset + s.index⟩ := by
      rw [position, hp, Option.map_some]
    have hkept : s.Text m' c := by
      unfold Text
      simp only [hp]
      refine ⟨bytes', hb', by rw [hoff ho]; omega, hlt, ?_, fun _ => hoff ho⟩
      rw [hoff ho, List.drop_zero]
      exact take_of_take htake h.length
    refine ⟨m', ?_, hmoves, hgr, hkept, ?_, ?_⟩
    · simp only [if_neg (by omega : ¬s.size - s.index = 0), hpos, hm', Option.bind_eq_bind,
        Option.bind_some, Option.pure_def]
    · intro hfit
      rw [List.take_of_length_le (by omega : text.length ≤ s.size - s.index - 1),
        List.length_append, List.length_singleton, ← List.append_assoc] at htake
      have hlen : (c ++ text).length = s.index + text.length := by
        rw [List.length_append, h.length]
      have hfull : ({ s with index := s.index + text.length } : StringObject).Text m'
          (c ++ text) := by
        unfold Text
        simp only [hp]
        refine ⟨bytes', hb', by rw [hoff ho]; omega, by omega, ?_, fun _ => hoff ho⟩
        rw [hoff ho, List.drop_zero]
        exact take_of_take (k := 1) htake hlen
      refine ⟨hfull, (hfull.ended_iff hp hb').mpr ?_⟩
      rw [hoff ho, List.drop_zero]
      exact htake
    · intro hover
      rw [hkept.ended_iff hp hb', hoff ho, List.drop_zero]
      -- the first byte stored stands where the terminator stood
      have hfirst : bytes'.take (s.index + 1) =
          c ++ (text.take (s.size - s.index - 1) ++ [0]).take 1 := by
        have hmin := congrArg (List.take (s.index + 1)) htake
        have hc : c.take (s.index + 1) = c := List.take_of_length_le (by rw [h.length]; omega)
        rw [List.take_take, Nat.min_eq_left (by simp), List.take_append, h.length, hc,
          Nat.add_sub_cancel_left] at hmin
        exact hmin
      rw [hfirst, List.append_right_inj]
      rcases Nat.lt_or_ge (s.size - s.index) 2 with hsmall | hbig
      · rw [show s.size - s.index - 1 = 0 by omega]
        simp [hsmall]
      · cases text with
        | nil =>
          simp at hover
          omega
        | cons x xs =>
          rw [show s.size - s.index - 1 = (s.size - s.index - 2) + 1 by omega]
          simp
          omega

theorem printText_spec (h : s.Text m c) (ho : s.ownData) (hsmall : m.Small)
    (hl : m.limit ≤ addressSpace) (htext : text.length < intMax) :
    ∃ r, s.printText m text (fun m s => vprintf (k + 1) m s text) = some r ∧
      s.Moves m r.memory r.object ∧
      ((r.ret = .ok text.length ∧ r.object.Holds r.memory (c ++ text) ∧
          (s.size - s.index ≤ text.length →
            (m.request (s.grownSize (text.length + 1))).2 = true)) ∨
        (r.ret = .error .enomem ∧ s.size - s.index ≤ text.length ∧
          (m.request (s.grownSize (text.length + 1))).2 = false ∧ r.object = s ∧
          s.Text r.memory c ∧
          (s.Ended r.memory ↔ s.size - s.index < 2 ∨ text.head? = some 0))) := by
  have haddr : addressSpace = 2 ^ 48 := rfl
  have hrange : sizeRange = 2 ^ 64 := rfl
  have hmax : intMax = 2 ^ 31 - 1 := rfl
  have hsize := h.size_le hsmall hl
  rcases vsnprintf_spec h ho htext with ⟨m₁, hm₁, hmoves, hgr, hkept, hfits, hcut⟩
  unfold printText
  rw [sizeMinus_of_le h.index_le (by omega)]
  simp only [hm₁, Option.bind_eq_bind, Option.bind_some, Option.pure_def]
  by_cases hfit : text.length < s.size - s.index
  · rw [if_pos hfit]
    exact ⟨_, rfl, hmoves.trans (.of_bytesAt rfl rfl rfl rfl), .inl ⟨rfl, hfits hfit, by omega⟩⟩
  · rw [if_neg hfit, if_neg (by omega)]
    have hg := growth_eq (q := text.length + 1) h.index_le hsize (by omega) (by omega)
      (by omega)
    have hpos := growth_pos (s := s) (q := text.length + 1) (by omega) (by omega)
    have hreq' : (m₁.request (s.grownSize (text.length + 1))).2 =
        (m.request (s.grownSize (text.length + 1))).2 := by
      rw [Memory.request_granted, Memory.request_granted, hgr, hmoves.limit]
    rcases allocateMoreChunkIfNeeded_spec hkept (by simp [ho]) hg hpos (by omega) with
      ⟨r, hr, hmoves', -, ⟨hret, hobj, hbytes, hreq⟩ | ⟨hret, hreq, hgrown⟩⟩
    · have hsame : r.memory.bytesAt = m₁.bytesAt := hbytes
      refine ⟨r, ?_, hmoves.trans hmoves', .inr ⟨hret, by omega, hreq'.symm.trans hreq, hobj,
        hkept.congr fun b _ => by rw [hsame], ?_⟩⟩
      · exact growThen_error hr hret
      · rw [← hcut (by omega)]
        exact ⟨fun he => he.congr fun b _ => by rw [hsame],
          fun he => he.congr fun b _ => by rw [hsame]⟩
    · have hsize' := hgrown.size_eq
      have hindex := hgrown.index_eq
      have hle := h.index_le
      rcases vsnprintf_spec hgrown.text hgrown.owned htext with
        ⟨m₂, hm₂, hmoves₂, -, -, hfits₂, -⟩
      have hroom : text.length < r.object.size - r.object.index := by omega
      have hsize₂ := hgrown.text.size_le (hmoves'.small (hmoves.small hsmall))
        (by rw [hmoves'.limit, hmoves.limit]; exact hl)
      refine ⟨⟨m₂, { r.object with index := r.object.index + text.length }, .ok text.length⟩, ?_,
        (hmoves.trans hmoves').trans (hmoves₂.trans (.of_bytesAt rfl rfl rfl rfl)),
        .inl ⟨rfl, hfits₂ hroom, fun _ => hreq'.symm.trans hreq⟩⟩
      rw [growThen_ok hr hret, vprintf, if_pos hgrown.owned, printText,
        sizeMinus_of_le hgrown.text.index_le (by omega)]
      simp only [hm₂, Option.bind_eq_bind, Option.bind_some, if_pos hroom, Option.pure_def]

/-- The size of the buffer a print starts in. -/
def printSize (s : StringObject) : ℕ :=
  if s.ownData then s.size else s.size + bufferChunkSize

/-- The memory after a print has made the buffer the string's own. -/
def printMemory (m : ByteMemory) (s : StringObject) : ByteMemory :=
  if s.ownData then m else (m.request (s.size + bufferChunkSize)).1

/-- The size of the buffer that a print asks for when the text does not fit. -/
def printGrown (s : StringObject) (text : List UInt8) : ℕ :=
  s.printSize + max (text.length + 1 - (s.printSize - s.index)) (3 * s.printSize / 2)

theorem vprintf_spec (h : s.Holds m c) (hsmall : m.Small) (hl : m.limit ≤ addressSpace)
    (htext : text.length < intMax) :
    ∃ r, s.vprintf (k + 2) m text = some r ∧ s.Moves m r.memory r.object ∧
      ((r.ret = .ok text.length ∧ r.object.Holds r.memory (c ++ text) ∧
          (s.printSize - s.index ≤ text.length →
            ((s.printMemory m).request (s.printGrown text)).2 = true)) ∨
        (r.ret = .error .enomem ∧ r.object.Holds r.memory c ∧ s.ownData = false ∧
          (m.request s.printSize).2 = false) ∨
        (r.ret = .error .enomem ∧ s.printSize - s.index ≤ text.length ∧
          (s.ownData = false → (m.request s.printSize).2 = true) ∧
          ((s.printMemory m).request (s.printGrown text)).2 = false ∧
          r.object.Text r.memory c ∧
          (r.object.Ended r.memory ↔ s.printSize - s.index < 2 ∨ text.head? = some 0))) := by
  have haddr : addressSpace = 2 ^ 48 := rfl
  have hrange : sizeRange = 2 ^ 64 := rfl
  have hsize := h.1.size_le hsmall hl
  unfold vprintf
  cases ho : s.ownData with
  | true =>
    have hps : s.printSize = s.size := by simp [printSize, ho]
    have hpg : s.printGrown text = s.grownSize (text.length + 1) := by
      rw [printGrown, hps, grownSize]
    have hpm : s.printMemory m = m := by simp [printMemory, ho]
    rw [if_pos rfl, hps, hpg, hpm]
    rcases printText_spec (k := k) h.1 ho hsmall hl htext with
      ⟨r, hr, hmoves, hok | ⟨hret, hcut, hreq, hobj, htext', hend⟩⟩
    · exact ⟨r, hr, hmoves, .inl hok⟩
    · exact ⟨r, hr, hmoves, .inr (.inr ⟨hret, hcut, by simp, hreq, hobj ▸ htext', hobj ▸ hend⟩)⟩
  | false =>
    have hps : s.printSize = s.size + bufferChunkSize := by simp [printSize, ho]
    have hpm : s.printMemory m = (m.request (s.size + bufferChunkSize)).1 := by
      simp [printMemory, ho]
    rw [if_neg (by simp)]
    have hchunk : bufferChunkSize = 16 := rfl
    rcases allocateMoreChunkIfNeeded_spec (q := 0) h.1 (fun _ => h.2)
      (if_pos rfl : s.growth 0 = some bufferChunkSize) (by omega) (by omega) with
      ⟨r, hr, hmoves, hgr, ⟨hret, hobj, hbytes, hreq⟩ | ⟨hret, hreq, hgrown⟩⟩
    · refine ⟨r, ?_, hmoves, .inr (.inl ⟨hret, ?_, rfl, hps ▸ hreq⟩)⟩
      · exact growThen_error hr hret
      · rw [hobj]
        exact ⟨h.1.congr fun b _ => by rw [hbytes], h.2.congr fun b _ => by rw [hbytes]⟩
    · have hsize' : r.object.size = s.printSize := hgrown.size_eq.trans hps.symm
      have hindex := hgrown.index_eq
      have hg : r.object.grownSize (text.length + 1) = s.printGrown text := by
        rw [printGrown, grownSize, hsize', hindex]
      have hm : (r.memory.request (s.printGrown text)).2 =
          ((s.printMemory m).request (s.printGrown text)).2 := by
        rw [hpm, Memory.request_granted, Memory.request_granted, hgr, hmoves.limit]
        rfl
      rcases printText_spec (k := k) hgrown.text hgrown.owned (hmoves.small hsmall)
        (hmoves.limit ▸ hl) htext with
        ⟨r', hr', hmoves', ⟨hret', hholds, hok⟩ | ⟨hret', hcut, hreq', hobj, htext', hend⟩⟩
      · refine ⟨r', ?_, hmoves.trans hmoves', .inl ⟨hret', hholds, ?_⟩⟩
        · rw [growThen_ok hr hret]
          exact hr'
        · rw [← hsize', ← hindex, ← hm, ← hg]
          exact hok
      · refine ⟨r', ?_, hmoves.trans hmoves', .inr (.inr ⟨hret', ?_, fun _ => hps ▸ hreq, ?_,
          hobj ▸ htext', ?_⟩)⟩
        · rw [growThen_ok hr hret]
          exact hr'
        · rw [← hsize', ← hindex]
          exact hcut
        · rw [← hm, ← hg]
          exact hreq'
        · rw [← hsize', ← hindex, hobj]
          exact hend

end StringObject

end LibPrelude
