import LibPrelude.String.Runs

/-! # What an append leaves

Appending to a string leaves its text followed by the new one, or its text as it
was, whatever requests for memory are refused. This fails for a borrowed string
with room to spare, and for a printed text that is cut before the buffer grows.
-/

namespace LibPrelude

variable {m : ByteMemory} {w : StringWorld} {s : StringObject} {c d str text : List UInt8}
  {grants : List Bool} {n len i : ℕ}

/-- The same memory before other outcomes of the coming requests. -/
def Memory.granting {α : Type*} (m : Memory α) (grants : List Bool) : Memory α :=
  { m with grants := grants }

theorem request_of_available (hg : ∀ g ∈ m.grants, g = true) (hn : n ≤ m.limit) :
    (m.request n).2 = true := by
  rw [Memory.request_granted, decide_eq_true hn, Bool.and_true]
  cases h : m.grants with
  | nil => rfl
  | cons g gs => exact hg g (by simp [h])

namespace StringObject

/-- Whatever requests are refused, one recursion is enough: the text `d` is appended to `c`, or an
error leaves `c`, and there is no error when memory is available for a buffer of `n` bytes. -/
def Appends (run : ℕ → ByteMemory → Option StringCallResult) (m : ByteMemory) (n : ℕ)
    (c d : List UInt8) : Prop :=
  ∀ grants depth, ∃ r, run (depth + 2) (m.granting grants) = some r ∧
    ((∃ k, r.ret = .ok k ∧ r.object.Holds r.memory (c ++ d)) ∨
      (∃ e, r.ret = .error e ∧ r.object.Holds r.memory c) ∧
        ¬((∀ g ∈ grants, g = true) ∧ n ≤ m.limit))

/-- A borrowed string has no more room than the text and its terminator take. -/
def LacksRoom (s : StringObject) (len : ℕ) : Prop :=
  s.ownData = false → s.size - s.index ≤ len + 1

theorem appends_ncat (hc : s.Holds m c) (hsmall : m.Small) (hl : m.limit ≤ addressSpace)
    (hlen : len ≤ str.length) (hstr : str.length ≤ addressSpace) (hroom : s.LacksRoom len) :
    Appends (fun depth m => s.ncat depth m str len) m (s.grownSize (len + 1)) c
      (str.take len) := by
  intro grants depth
  rcases ncat_spec (m := m.granting grants) (k := depth) hc hsmall hl hlen hstr hroom with
    ⟨r, hr, -, ⟨hret, hobj, hbytes, hreq⟩ | ⟨hret, hholds⟩⟩
  · refine ⟨r, hr, .inr ⟨⟨_, hret, ?_⟩, ?_⟩⟩
    · rw [hobj]
      exact ⟨hc.1.congr fun b _ => by rw [hbytes]; rfl, hc.2.congr fun b _ => by rw [hbytes]; rfl⟩
    · rintro ⟨hg, hn⟩
      rw [request_of_available (m := m.granting grants) hg hn] at hreq
      cases hreq
  · exact ⟨r, hr, .inl ⟨_, hret, hholds⟩⟩

end StringObject

namespace StringWorld

open StringObject

end StringWorld

/-- A function that appends to a text, unless it fails. -/
structure Ncat where
  ncat : List UInt8 → List UInt8 → Except ErrorCode (List UInt8)
  appends : ∀ out text out', ncat out text = .ok out' → out' = out ++ text

def plainNcat : Ncat := ⟨fun out text => .ok (out ++ text), fun _ _ _ h => (Except.ok.inj h).symm⟩

namespace StringObject

def contents (m : ByteMemory) (s : StringObject) : List UInt8 :=
  match s.data with
  | none => []
  | some p => (((m.bytesAt p.block).getD []).drop p.offset).take s.index

theorem Holds.contents_eq (h : s.Holds m c) : s.contents m = c := by
  have htext := h.1
  unfold Text at htext
  cases hp : s.data with
  | none =>
    rw [hp] at htext
    rw [contents, hp]
    exact htext.1.symm
  | some p =>
    rw [hp] at htext
    obtain ⟨bytes, hbytes, -, -, hc, -⟩ := htext
    simp only [contents, hp, hbytes, Option.getD_some]
    exact hc

/-- A string with a buffer of its own, which its text fills. -/
def ofText (c : List UInt8) : StringObject :=
  ⟨true, true, 1, some ⟨0, 0⟩, c.length + 1, c.length⟩

def textMemory (c : List UInt8) : ByteMemory := ⟨[some (c ++ [0])], [], addressSpace, 0⟩

theorem holds_ofText (c : List UInt8) : (ofText c).Holds (textMemory c) c := by
  have hbytes : (textMemory c).bytesAt 0 = some (c ++ [0]) := rfl
  have htext : (ofText c).Text (textMemory c) c :=
    ⟨c ++ [0], hbytes, by simp [ofText], by simp [ofText], by simp [ofText], fun _ => rfl⟩
  refine ⟨htext, (htext.ended_iff rfl hbytes).mpr ?_⟩
  simp [ofText]

theorem small_textMemory (hc : c.length < addressSpace) : (textMemory c).Small := by
  intro b bytes hbytes
  cases b with
  | zero =>
    obtain rfl : c ++ [0] = bytes := Option.some.inj hbytes
    rw [List.length_append]
    exact hc
  | succ b => cases hbytes

/-- The text with `d` behind it, as `ncat` makes it of such a string; how requests for memory end
is given for each text. -/
def ncatText (grants : List UInt8 → List Bool) (c d : List UInt8) : Except ErrorCode (List UInt8) :=
  if c.length < addressSpace ∧ d.length ≤ addressSpace then
    match (ofText c).ncat 2 ((textMemory c).granting (grants c)) d d.length with
    | some r => r.ret.map fun _ => r.object.contents r.memory
    | none => .error .assertion
  else .error .enomem

theorem ncatText_of_run {grants : List UInt8 → List Bool} {r : StringCallResult}
    (hc : c.length < addressSpace) (hd : d.length ≤ addressSpace)
    (hr : (ofText c).ncat 2 ((textMemory c).granting (grants c)) d d.length = some r) :
    ncatText grants c d = r.ret.map fun _ => r.object.contents r.memory := by
  rw [ncatText, if_pos ⟨hc, hd⟩, hr]

/-- The append ends, in the text with `d` behind it or in an error; there is none when memory is
available. -/
theorem ncatText_cases (grants : List UInt8 → List Bool) (hc : c.length < addressSpace)
    (hd : d.length ≤ addressSpace) : ncatText grants c d = .ok (c ++ d) ∨
      (∃ e, ncatText grants c d = .error e) ∧
        ¬((∀ g ∈ grants c, g = true) ∧ (ofText c).grownSize (d.length + 1) ≤ addressSpace) := by
  have hlimit : (textMemory c).limit = addressSpace := rfl
  have hroom : (ofText c).LacksRoom d.length := by
    intro hown
    cases hown
  have happends := appends_ncat (holds_ofText c) (small_textMemory hc) hlimit.le le_rfl hd hroom
  obtain ⟨r, hr, hends⟩ := happends (grants c) 0
  rw [ncatText_of_run hc hd hr]
  rcases hends with ⟨⟨k, hk, hholds⟩⟩ | ⟨⟨e, he, -⟩, hno⟩
  · left
    rw [hk, Except.map, hholds.contents_eq, List.take_length]
  · right
    rw [hlimit] at hno
    refine ⟨⟨e, ?_⟩, hno⟩
    rw [he, Except.map]

def toNcat (grants : List UInt8 → List Bool) : Ncat where
  ncat := ncatText grants
  appends := by
    intro c d out hout
    by_cases hsize : c.length < addressSpace ∧ d.length ≤ addressSpace
    · rcases ncatText_cases grants hsize.1 hsize.2 with hok | ⟨⟨e, he⟩, -⟩
      · rw [hok] at hout
        exact (Except.ok.inj hout).symm
      · rw [he] at hout
        cases hout
    · rw [ncatText, if_neg hsize] at hout
      cases hout

/-- Where memory is available, a full buffer grows and the append is that of texts. -/
theorem toNcat_granted (hc : c.length < addressSpace) (hd : d.length ≤ addressSpace)
    (hsize : (ofText c).grownSize (d.length + 1) ≤ addressSpace) :
    (toNcat fun _ => []).ncat c d = plainNcat.ncat c d := by
  rcases ncatText_cases (fun _ => []) hc hd with hok | ⟨-, hno⟩
  · exact hok
  · exact absurd ⟨List.forall_mem_nil _, hsize⟩ hno

end StringObject

end LibPrelude
