import LibPrelude.Criteria.BrokenDownTime
import LibPrelude.General.Decimal
import LibPrelude.General.Split
import LibPrelude.Message.Basic

/-! # Parsing an address

An address is a host with or without a port, and a host in brackets may have colons.
What stands in front of the bracket, or between the closing bracket and the colon of the
port, is skipped, and the port is what the C library makes of the text behind the colon.
-/

namespace LibPrelude

/-- The number that a text begins with, and what follows it. -/
def strtoul (str : List UInt8) : ℕ × List UInt8 :=
  let (neg, _, bs) := splitSign (str.dropWhile isSpace)
  if bs.takeWhile isDigit = [] then (0, str)
  else
    let n := digitsValue (bs.takeWhile isDigit)
    (if 2 ^ 64 ≤ n then 2 ^ 64 - 1 else if neg then (2 ^ 64 - n) % 2 ^ 64 else n,
      bs.dropWhile isDigit)

/-- The address and the port that were written to, and the number of blocks of memory that are
left to the caller. -/
structure ParsedAddress where
  ret : Ret
  addr : List UInt8
  port : UInt32
  allocated : ℕ

/-- The port behind the last colon; it is stored even when the address is refused. -/
def parsePort (input portText : List UInt8) : ParsedAddress :=
  let (n, rest) := strtoul portText
  if rest ≠ [] then ⟨.error .generic, [], .ofNat n, 0⟩ else ⟨.ok (), input, .ofNat n, 1⟩

def preludeParseAddress (str : List UInt8) (port : UInt32) : ParsedAddress :=
  match Split.first 91 str with
  | none =>
    match Split.last 58 str with
    | none => ⟨.ok (), str, port, 1⟩
    | some (input, portText) => parsePort input portText
  | some (_, input) =>
    match Split.first 93 input with
    | none => ⟨.error .generic, [], port, 0⟩
    | some (input, portPtr) =>
      match Split.last 58 portPtr with
      | none => ⟨.ok (), input, port, 1⟩
      | some (_, portText) => parsePort input portText

structure PortText (text : List UInt8) (port : ℕ) : Prop where
  ne_nil : text ≠ []
  digits : ∀ b ∈ text, isDigit b = true
  value : digitsValue text = port
  le : port ≤ 65535

def NoBracket (h : List UInt8) : Prop := 91 ∉ h ∧ 93 ∉ h

/-- A string that is an address, with its host and the port if one is written. -/
inductive AddressForm : List UInt8 → List UInt8 → Option ℕ → Prop
  | host {h : List UInt8} : NoBracket h → 58 ∉ h → AddressForm h h none
  | hostPort {h t : List UInt8} {p : ℕ} : NoBracket h → PortText t p →
      AddressForm (h ++ 58 :: t) h (some p)
  | bracket {h : List UInt8} : NoBracket h → AddressForm (91 :: (h ++ [93])) h none
  | bracketPort {h t : List UInt8} {p : ℕ} : NoBracket h → PortText t p →
      AddressForm (91 :: (h ++ 93 :: 58 :: t)) h (some p)

/-- A text that the C library takes for a number, or for zero when it is empty. -/
inductive Swallowed : List UInt8 → Prop
  | empty : Swallowed []
  | number {blanks sign digits : List UInt8} : (∀ b ∈ blanks, isSpace b = true) →
      sign = [] ∨ sign = [43] ∨ sign = [45] → digits ≠ [] → (∀ b ∈ digits, isDigit b = true) →
      Swallowed (blanks ++ (sign ++ digits))

def IsPort (t : List UInt8) : Prop := ∃ p, PortText t p

/-- A string that is no address and is taken for one. -/
inductive MisreadAddress : List UInt8 → Prop
  | host {s : List UInt8} : 91 ∉ s → 58 ∉ s → 93 ∈ s → MisreadAddress s
  | hostPort {h t : List UInt8} : 91 ∉ h ++ t → 58 ∉ t → Swallowed t → 93 ∈ h ∨ ¬ IsPort t →
      MisreadAddress (h ++ 58 :: t)
  | bracket {front h tail : List UInt8} : 91 ∉ front → 93 ∉ h → 58 ∉ tail →
      front ≠ [] ∨ 91 ∈ h ∨ tail ≠ [] → MisreadAddress (front ++ 91 :: (h ++ 93 :: tail))
  | bracketPort {front h mid t : List UInt8} : 91 ∉ front → 93 ∉ h → 58 ∉ t → Swallowed t →
      front ≠ [] ∨ 91 ∈ h ∨ mid ≠ [] ∨ ¬ IsPort t →
      MisreadAddress (front ++ 91 :: (h ++ 93 :: (mid ++ 58 :: t)))

section Port

variable {t rest : List UInt8}

theorem splitSign_append (bs : List UInt8) : ∃ sign, (sign = [] ∨ sign = [43] ∨ sign = [45]) ∧
    bs = sign ++ (splitSign bs).2.2 := by
  unfold splitSign
  split
  · exact ⟨[45], .inr (.inr rfl), rfl⟩
  · exact ⟨[43], .inr (.inl rfl), rfl⟩
  · exact ⟨[], .inl rfl, rfl⟩

theorem splitSign_sign {sign bs : List UInt8} (hs : sign = [] ∨ sign = [43] ∨ sign = [45])
    (hne : bs ≠ []) (hd : ∀ b ∈ bs, isDigit b = true) : (splitSign (sign ++ bs)).2.2 = bs := by
  obtain ⟨d, ds, rfl⟩ := List.exists_cons_of_ne_nil hne
  rcases hs with rfl | rfl | rfl
  · rw [List.nil_append, splitSign_digit (isDigit_iff.mp (hd d List.mem_cons_self)).1]
  · rfl
  · rfl

theorem strtoul_end_iff : (strtoul t).2 = [] ↔ Swallowed t := by
  constructor
  · intro h
    simp only [strtoul] at h
    by_cases hdigits : (splitSign (t.dropWhile isSpace)).2.2.takeWhile isDigit = []
    · rw [if_pos hdigits] at h
      rw [show t = [] from h]
      exact .empty
    · rw [if_neg hdigits] at h
      obtain ⟨sign, hsign, hbs⟩ := splitSign_append (t.dropWhile isSpace)
      have hall := List.dropWhile_eq_nil_iff.mp h
      have htext : t = t.takeWhile isSpace ++
          (sign ++ (splitSign (t.dropWhile isSpace)).2.2) := by
        rw [← hbs, List.takeWhile_append_dropWhile]
      rw [htext]
      refine .number (fun b hb => List.mem_takeWhile_imp hb) hsign (fun hnil => ?_) hall
      rw [hnil] at hdigits
      exact hdigits rfl
  · rintro (_ | ⟨hblanks, hsign, hne, hd⟩)
    · rfl
    · rename_i blanks sign digits
      have hstop : (sign ++ digits).dropWhile isSpace = sign ++ digits := by
        obtain ⟨d, ds, rfl⟩ := List.exists_cons_of_ne_nil hne
        have hdig := not_isSpace_of_isDigit (hd d List.mem_cons_self)
        rcases hsign with rfl | rfl | rfl
        · exact List.dropWhile_cons_of_neg (by rw [hdig]; nofun)
        · rfl
        · rfl
      have htake : digits.takeWhile isDigit = digits := List.takeWhile_eq_self_iff.mpr hd
      have hdrop : digits.dropWhile isDigit = [] := List.dropWhile_eq_nil_iff.mpr hd
      rw [strtoul, List.dropWhile_append_of_pos hblanks, hstop]
      simp only [splitSign_sign hsign hne hd, htake, hdrop, hne, if_false]

theorem strtoul_digits (hne : t ≠ []) (hd : ∀ b ∈ t, isDigit b = true) :
    strtoul t = (if 2 ^ 64 ≤ digitsValue t then 2 ^ 64 - 1 else digitsValue t, []) := by
  obtain ⟨d, ds, rfl⟩ := List.exists_cons_of_ne_nil hne
  have hdig := hd d List.mem_cons_self
  have hblank : (d :: ds).dropWhile isSpace = d :: ds :=
    List.dropWhile_cons_of_neg (by rw [not_isSpace_of_isDigit hdig]; nofun)
  have hall : (d :: ds).takeWhile isDigit = d :: ds := List.takeWhile_eq_self_iff.mpr hd
  have hnone : (d :: ds).dropWhile isDigit = [] := List.dropWhile_eq_nil_iff.mpr hd
  rw [strtoul, hblank, splitSign_digit (isDigit_iff.mp hdig).1]
  simp only [hall, hnone, reduceCtorEq, if_false, Bool.false_eq_true]

theorem PortText.not_mem {p : ℕ} (h : PortText t p) {b : UInt8} (hb : isDigit b = false) :
    b ∉ t := by
  intro hmem
  rw [h.digits b hmem] at hb
  cases hb

end Port

section Parse

variable {s h t : List UInt8} {port : UInt32} {p : ℕ}

theorem parsePort_of_portText (ht : PortText t p) :
    parsePort h t = ⟨.ok (), h, .ofNat p, 1⟩ := by
  have hsmall : ¬ 2 ^ 64 ≤ digitsValue t := by
    have := ht.le
    rw [ht.value]
    omega
  rw [parsePort, strtoul_digits ht.ne_nil ht.digits, if_neg hsmall, ht.value]
  simp only [ne_eq, not_true_eq_false, if_false]

theorem parsePort_of_swallowed (ht : Swallowed t) :
    ∃ n, parsePort h t = ⟨.ok (), h, n, 1⟩ := by
  have hend := strtoul_end_iff.mpr ht
  refine ⟨.ofNat (strtoul t).1, ?_⟩
  rw [parsePort]
  simp only [hend, ne_eq, not_true_eq_false, if_false]

theorem parsePort_of_not_swallowed (ht : ¬ Swallowed t) :
    ∃ n, parsePort h t = ⟨.error .generic, [], n, 0⟩ := by
  have hend := mt strtoul_end_iff.mp ht
  refine ⟨.ofNat (strtoul t).1, ?_⟩
  rw [parsePort]
  simp only [ne_eq, hend, not_false_eq_true, if_true]

theorem parseAddress_host (hb : 91 ∉ s) (hc : 58 ∉ s) :
    preludeParseAddress s port = ⟨.ok (), s, port, 1⟩ := by
  rw [preludeParseAddress, Split.first_eq_none_iff.mpr hb, Split.last_eq_none_iff.mpr hc]

theorem parseAddress_hostPort (hb : 91 ∉ h ++ 58 :: t) (hc : 58 ∉ t) :
    preludeParseAddress (h ++ 58 :: t) port = parsePort h t := by
  rw [preludeParseAddress, Split.first_eq_none_iff.mpr hb, Split.last_append hc]

theorem parseAddress_open {front input : List UInt8} (hf : 91 ∉ front) (hi : 93 ∉ input) :
    preludeParseAddress (front ++ 91 :: input) port = ⟨.error .generic, [], port, 0⟩ := by
  rw [preludeParseAddress, Split.first_append hf]
  simp only [Split.first_eq_none_iff.mpr hi]

theorem parseAddress_bracket {front tail : List UInt8} (hf : 91 ∉ front) (hh : 93 ∉ h)
    (hc : 58 ∉ tail) :
    preludeParseAddress (front ++ 91 :: (h ++ 93 :: tail)) port = ⟨.ok (), h, port, 1⟩ := by
  rw [preludeParseAddress, Split.first_append hf]
  simp only [Split.first_append hh, Split.last_eq_none_iff.mpr hc]

theorem parseAddress_bracketPort {front mid : List UInt8} (hf : 91 ∉ front) (hh : 93 ∉ h)
    (hc : 58 ∉ t) : preludeParseAddress (front ++ 91 :: (h ++ 93 :: (mid ++ 58 :: t))) port =
      parsePort h t := by
  rw [preludeParseAddress, Split.first_append hf]
  simp only [Split.first_append hh, Split.last_append hc]

/-- The shapes of strings that the parser tells apart. -/
theorem address_shape (s : List UInt8) :
    (91 ∉ s ∧ 58 ∉ s) ∨
    (∃ h t, s = h ++ 58 :: t ∧ 91 ∉ h ++ 58 :: t ∧ 58 ∉ t) ∨
    (∃ front input, s = front ++ 91 :: input ∧ 91 ∉ front ∧ 93 ∉ input) ∨
    (∃ front h tail, s = front ++ 91 :: (h ++ 93 :: tail) ∧ 91 ∉ front ∧ 93 ∉ h ∧ 58 ∉ tail) ∨
    ∃ front h mid t, s = front ++ 91 :: (h ++ 93 :: (mid ++ 58 :: t)) ∧ 91 ∉ front ∧ 93 ∉ h ∧
      58 ∉ t := by
  by_cases hb : 91 ∈ s
  · obtain ⟨front, input, rfl, hf⟩ := Split.exists_first hb
    by_cases hi : 93 ∈ input
    · obtain ⟨h, tail, rfl, hh⟩ := Split.exists_first hi
      by_cases hc : 58 ∈ tail
      · obtain ⟨mid, t, rfl, ht⟩ := Split.exists_last hc
        exact .inr (.inr (.inr (.inr ⟨front, h, mid, t, rfl, hf, hh, ht⟩)))
      · exact .inr (.inr (.inr (.inl ⟨front, h, tail, rfl, hf, hh, hc⟩)))
    · exact .inr (.inr (.inl ⟨front, input, rfl, hf, hi⟩))
  · by_cases hc : 58 ∈ s
    · obtain ⟨h, t, rfl, ht⟩ := Split.exists_last hc
      exact .inr (.inl ⟨h, t, rfl, hb, ht⟩)
    · exact .inl ⟨hb, hc⟩

theorem AddressForm.parse {q : Option ℕ} (ha : AddressForm s h q) (port : UInt32) :
    preludeParseAddress s port = ⟨.ok (), h, (q.map UInt32.ofNat).getD port, 1⟩ := by
  cases ha with
  | host hh hc => exact parseAddress_host hh.1 hc
  | hostPort hh ht =>
    have hcolon := ht.not_mem (b := 58) (by decide)
    have hopen := ht.not_mem (b := 91) (by decide)
    rw [parseAddress_hostPort (by simp [hh.1, hopen]) hcolon, parsePort_of_portText ht]
    rfl
  | bracket hh => exact @parseAddress_bracket _ port [] [] nofun hh.2 nofun
  | bracketPort hh ht =>
    have hcolon := ht.not_mem (b := 58) (by decide)
    have hparse := @parseAddress_bracketPort _ _ port [] [] nofun hh.2 hcolon
    exact hparse.trans (parsePort_of_portText ht)

/-- The string is parsed as an address exactly when it is one, and nothing is left allocated when
it is refused. -/
def Faithful (s : List UInt8) : Prop := ∀ port,
  ((preludeParseAddress s port).ret = .ok () → ∃ h q, AddressForm s h q ∧
    (preludeParseAddress s port).addr = h ∧
    (preludeParseAddress s port).port = (q.map UInt32.ofNat).getD port) ∧
  (∀ h q, AddressForm s h q → (preludeParseAddress s port).ret = .ok () ∧
    (preludeParseAddress s port).addr = h ∧
    (preludeParseAddress s port).port = (q.map UInt32.ofNat).getD port) ∧
  ((preludeParseAddress s port).ret ≠ .ok () → (preludeParseAddress s port).allocated = 0)

theorem parsePort_allocated (hr : (parsePort h t).ret ≠ .ok ()) :
    (parsePort h t).allocated = 0 := by
  by_cases hs : Swallowed t
  · obtain ⟨n, hn⟩ := parsePort_of_swallowed hs
    rw [hn] at hr
    exact absurd rfl hr
  · obtain ⟨n, hn⟩ := parsePort_of_not_swallowed hs
    rw [hn]

theorem parseAddress_allocated (hr : (preludeParseAddress s port).ret ≠ .ok ()) :
    (preludeParseAddress s port).allocated = 0 := by
  rcases address_shape s with ⟨hb, hc⟩ | ⟨h, t, rfl, hb, hc⟩ | ⟨front, input, rfl, hf, hi⟩ |
    ⟨front, h, tail, rfl, hf, hh, hc⟩ | ⟨front, h, mid, t, rfl, hf, hh, hc⟩
  · rw [parseAddress_host hb hc] at hr
    exact absurd rfl hr
  · rw [parseAddress_hostPort hb hc] at hr ⊢
    exact parsePort_allocated hr
  · rw [parseAddress_open hf hi]
  · rw [parseAddress_bracket hf hh hc] at hr
    exact absurd rfl hr
  · rw [parseAddress_bracketPort hf hh hc] at hr ⊢
    exact parsePort_allocated hr

/-- A string that is taken for an address and is not misread is one. -/
theorem exists_address (hm : ¬ MisreadAddress s) (hr : (preludeParseAddress s port).ret = .ok ()) :
    ∃ h q, AddressForm s h q := by
  rcases address_shape s with ⟨hb, hc⟩ | ⟨h, t, rfl, hb, hc⟩ | ⟨front, input, rfl, hf, hi⟩ |
    ⟨front, h, tail, rfl, hf, hh, hc⟩ | ⟨front, h, mid, t, rfl, hf, hh, hc⟩
  · exact ⟨s, none, .host ⟨hb, fun hclose => hm (.host hb hc hclose)⟩ hc⟩
  · rw [parseAddress_hostPort hb hc] at hr
    have hht : 91 ∉ h ++ t := fun hmem => hb (by
      rcases List.mem_append.mp hmem with hmem | hmem <;> simp [hmem])
    by_cases hs : Swallowed t
    · have hgood : ¬ (93 ∈ h ∨ ¬ IsPort t) := fun hbad => hm (.hostPort hht hc hs hbad)
      rw [not_or, not_not] at hgood
      obtain ⟨hclose, p, hp⟩ := hgood
      exact ⟨h, some p, .hostPort ⟨fun hmem => hht (List.mem_append_left _ hmem), hclose⟩ hp⟩
    · obtain ⟨n, hn⟩ := parsePort_of_not_swallowed hs
      rw [hn] at hr
      cases hr
  · rw [parseAddress_open hf hi] at hr
    cases hr
  · have hgood : ¬ (front ≠ [] ∨ 91 ∈ h ∨ tail ≠ []) := fun hbad => hm (.bracket hf hh hc hbad)
    rw [not_or, not_or, not_not, not_not] at hgood
    obtain ⟨rfl, hopen, rfl⟩ := hgood
    exact ⟨h, none, .bracket ⟨hopen, hh⟩⟩
  · rw [parseAddress_bracketPort hf hh hc] at hr
    by_cases hs : Swallowed t
    · have hgood : ¬ (front ≠ [] ∨ 91 ∈ h ∨ mid ≠ [] ∨ ¬ IsPort t) := fun hbad =>
        hm (.bracketPort hf hh hc hs hbad)
      rw [not_or, not_or, not_or, not_not, not_not, not_not] at hgood
      obtain ⟨rfl, hopen, rfl, p, hp⟩ := hgood
      exact ⟨h, some p, .bracketPort ⟨hopen, hh⟩ hp⟩
    · obtain ⟨n, hn⟩ := parsePort_of_not_swallowed hs
      rw [hn] at hr
      cases hr

theorem MisreadAddress.accepted (hm : MisreadAddress s) (port : UInt32) :
    (preludeParseAddress s port).ret = .ok () := by
  cases hm with
  | host hb hc _ => rw [parseAddress_host hb hc]
  | @hostPort h t hb hc hs _ =>
    have hb' : 91 ∉ h ++ 58 :: t := by
      simpa using hb
    obtain ⟨n, hn⟩ := @parsePort_of_swallowed h t hs
    rw [parseAddress_hostPort hb' hc, hn]
  | bracket hf hh hc _ => rw [parseAddress_bracket hf hh hc]
  | @bracketPort front h mid t hf hh hc hs _ =>
    obtain ⟨n, hn⟩ := @parsePort_of_swallowed h t hs
    rw [parseAddress_bracketPort hf hh hc, hn]

theorem AddressForm.shape {q : Option ℕ} (ha : AddressForm s h q) : NoBracket h ∧
    ((s = h ∧ 58 ∉ h) ∨ (∃ t p, s = h ++ 58 :: t ∧ PortText t p) ∨ s = 91 :: (h ++ [93]) ∨
      ∃ t p, s = 91 :: (h ++ 93 :: 58 :: t) ∧ PortText t p) := by
  cases ha with
  | host hh hc => exact ⟨hh, .inl ⟨rfl, hc⟩⟩
  | hostPort hh ht => exact ⟨hh, .inr (.inl ⟨_, _, rfl, ht⟩)⟩
  | bracket hh => exact ⟨hh, .inr (.inr (.inl rfl))⟩
  | bracketPort hh ht => exact ⟨hh, .inr (.inr (.inr ⟨_, _, rfl, ht⟩))⟩

theorem AddressForm.of_open {q : Option ℕ} {front input : List UInt8} (ha : AddressForm s h q)
    (hs : s = front ++ 91 :: input) (hf : 91 ∉ front) : front = [] ∧ NoBracket h ∧
      (input = h ++ 93 :: [] ∨ ∃ t p, input = h ++ 93 :: 58 :: t ∧ PortText t p) := by
  obtain ⟨hh, hshape⟩ := ha.shape
  have hmem : 91 ∈ s := by rw [hs]; simp
  have hnil : (91 : UInt8) ∉ ([] : List UInt8) := nofun
  rcases hshape with ⟨rfl, -⟩ | ⟨t, p, rfl, ht⟩ | rfl | ⟨t, p, rfl, ht⟩
  · exact absurd hmem hh.1
  · have hopen := ht.not_mem (b := 91) (by decide)
    simp [hh.1, hopen] at hmem
  · obtain ⟨hfront, hinput⟩ := Split.first_unique hnil hf hs
    exact ⟨hfront.symm, hh, .inl hinput.symm⟩
  · obtain ⟨hfront, hinput⟩ := Split.first_unique hnil hf hs
    exact ⟨hfront.symm, hh, .inr ⟨t, p, hinput.symm, ht⟩⟩

theorem mem_of_cons {xs ys zs : List UInt8} (hs : xs ++ 58 :: ys = 91 :: zs) :
    91 ∈ xs ++ ys := by
  cases xs with
  | nil => cases hs
  | cons x xs =>
    obtain ⟨rfl, -⟩ := List.cons.inj hs
    exact List.mem_cons_self

theorem MisreadAddress.not_address (hm : MisreadAddress s) {q : Option ℕ} :
    ¬ AddressForm s h q := by
  intro ha
  cases hm with
  | host hb hc hclose =>
    obtain ⟨hh, ⟨rfl, -⟩ | ⟨t, p, rfl, -⟩ | rfl | ⟨t, p, rfl, -⟩⟩ := ha.shape
    · exact hh.2 hclose
    · simp at hc
    · simp at hb
    · simp at hb
  | @hostPort h' t' hb hc hs hbad =>
    obtain ⟨hh, ⟨hs', hc'⟩ | ⟨t, p, hs', ht⟩ | hs' | ⟨t, p, hs', -⟩⟩ := ha.shape
    · rw [← hs'] at hc'
      simp at hc'
    · obtain ⟨rfl, rfl⟩ := Split.last_unique hc (ht.not_mem (by decide)) hs'
      exact hbad.elim hh.2 fun hport => hport ⟨p, ht⟩
    · exact hb (mem_of_cons hs')
    · exact hb (mem_of_cons hs')
  | bracket hf hh hc hbad =>
    obtain ⟨rfl, hno, hinput | ⟨t, p, hinput, -⟩⟩ := ha.of_open rfl hf
    · obtain ⟨rfl, rfl⟩ := Split.first_unique hh hno.2 hinput
      rcases hbad with hbad | hbad | hbad
      · exact hbad rfl
      · exact hno.1 hbad
      · exact hbad rfl
    · obtain ⟨rfl, rfl⟩ := Split.first_unique hh hno.2 hinput
      exact hc List.mem_cons_self
  | @bracketPort front h' mid t' hf hh hc hs hbad =>
    obtain ⟨rfl, hno, hinput | ⟨t, p, hinput, ht⟩⟩ := ha.of_open rfl hf
    · obtain ⟨-, htail⟩ := Split.first_unique hh hno.2 hinput
      simp at htail
    · obtain ⟨rfl, htail⟩ := Split.first_unique hh hno.2 hinput
      obtain ⟨rfl, rfl⟩ := @Split.last_unique _ 58 mid t' [] t hc (ht.not_mem (by decide)) htail
      rcases hbad with hbad | hbad | hbad | hbad
      · exact hbad rfl
      · exact hno.1 hbad
      · exact hbad rfl
      · exact hbad ⟨p, ht⟩

theorem MisreadAddress.not_faithful (hm : MisreadAddress s) : ¬ Faithful s := by
  intro hf
  obtain ⟨h, q, ha, -⟩ := (hf 0).1 (hm.accepted 0)
  exact hm.not_address ha

/-- An address is parsed faithfully exactly when the string is none of those that are misread. -/
theorem parse_address_iff (s : List UInt8) : Faithful s ↔ ¬ MisreadAddress s := by
  constructor
  · exact fun hf hm => hm.not_faithful hf
  · intro hm port
    refine ⟨fun hr => ?_, fun h q ha => ?_, parseAddress_allocated⟩
    · obtain ⟨h, q, ha⟩ := exists_address hm hr
      exact ⟨h, q, ha, by rw [ha.parse port], by rw [ha.parse port]⟩
    · rw [ha.parse port]
      exact ⟨rfl, rfl, rfl⟩

/-- A colon without a port behind it sets the port to zero. -/
theorem parse_address_empty_port : ¬ ∀ s, Faithful s := by
  intro hall
  have hm : MisreadAddress ([104] ++ 58 :: []) :=
    .hostPort (by decide) (by decide) .empty (.inr fun ⟨p, hp⟩ => hp.ne_nil rfl)
  exact hm.not_faithful (hall _)

end Parse

end LibPrelude
