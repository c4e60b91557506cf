import LibPrelude.General.Base64
import LibPrelude.Idmef.ValueType
import LibPrelude.String.Contents

/-! # Byte strings as text

A byte string is printed in base64. The bytes are read one by one, and each character is
appended to the text on its own, which may fail. A read past the end of the bytes is told
apart from a failure.
-/

namespace LibPrelude

/-- Why bytes are not printed: memory past their end is read, or the text does not grow. -/
inductive PrintFailure where
  | outside
  | code (e : ErrorCode)
  deriving DecidableEq

def Ncat.append (n : Ncat) (out text : List UInt8) : Except PrintFailure (List UInt8) :=
  (n.ncat out text).mapError .code

def byteOf (src : List UInt8) (i : ℕ) : Except PrintFailure ℕ :=
  match src[i]? with
  | some b => .ok b.toNat
  | none => .error .outside

def b64tbl : List UInt8 :=
  ascii "ABCDEFGHIJKLMNOPQRSTUVWXYZabcdefghijklmnopqrstuvwxyz0123456789+/"

def b64 (i : ℕ) : UInt8 := b64tbl.getD (i &&& 0x3f) 0

def appendFour (n : Ncat) (src : List UInt8) (size : ℕ) (out : List UInt8) :
    Except PrintFailure (ℕ × List UInt8) := do
  let out ← n.append out [b64 ((← byteOf src 0) >>> 2)]
  let size := size - 1
  let high ← if size ≠ 0 then (do return (← byteOf src 1) >>> 4) else pure 0
  let out ← n.append out [b64 ((← byteOf src 0) <<< 4 + high)]
  let (c, size) ← if size ≠ 0 then (do
      let low ← byteOf src 1
      let size := size - 1
      let high ← if size ≠ 0 then (do return (← byteOf src 2) >>> 6) else pure 0
      return (b64 (low <<< 2 + high), size))
    else pure (61, size)
  let out ← n.append out [c]
  let (c, size) ← if size ≠ 0 then (do
      return (b64 (← byteOf src 2), size - 1))
    else pure (61, size)
  let out ← n.append out [c]
  return (size, out)

/-- The fuel is the size. -/
def bytesToStringFrom (n : Ncat) :
    ℕ → List UInt8 → ℕ → List UInt8 → Except PrintFailure (List UInt8)
  | _, _, 0, out => .ok out
  | 0, _, _ + 1, _ => .error .outside
  | fuel + 1, src, size + 1, out => do
    let (size, out) ← appendFour n src (size + 1) out
    bytesToStringFrom n fuel (src.drop 3) size out

def bytesToString (n : Ncat) (src : List UInt8) (size : ℕ) (out : List UInt8) :
    Except PrintFailure (List UInt8) :=
  bytesToStringFrom n size src size out

section

variable {n : Ncat} {a b c : UInt8} {bs out text : List UInt8} {k : ℕ}

def Ncat.appendEach (n : Ncat) (out text : List UInt8) : Except PrintFailure (List UInt8) :=
  text.foldlM (fun out c => n.append out [c]) out

/-- The text has been appended, or the function that appends has failed. -/
def Ncat.Appended (n : Ncat) (out text : List UInt8) : Except PrintFailure (List UInt8) → Prop
  | .ok out' => out' = out ++ text
  | .error (.code e) => ∃ out text, n.ncat out text = .error e
  | .error .outside => False

theorem appended_append (n : Ncat) (out text : List UInt8) :
    n.Appended out text (n.append out text) := by
  rcases h : n.ncat out text with e | out'
  · simp only [Ncat.append, h, Except.mapError]
    exact ⟨out, text, h⟩
  · simp only [Ncat.append, h, Except.mapError]
    exact n.appends out text out' h

theorem Ncat.Appended.bind {more : List UInt8} {r : Except PrintFailure (List UInt8)}
    {f : List UInt8 → Except PrintFailure (List UInt8)} (h : n.Appended out text r)
    (hf : n.Appended (out ++ text) more (f (out ++ text))) :
    n.Appended out (text ++ more) (r >>= f) := by
  rcases r with (_ | e) | out'
  · exact h
  · exact h
  · obtain rfl : out' = out ++ text := h
    change n.Appended out (text ++ more) (f (out ++ text))
    rcases hr : f (out ++ text) with (_ | e) | out' <;> rw [hr] at hf
    · exact hf
    · exact hf
    · have hout : out' = out ++ text ++ more := hf
      rwa [List.append_assoc] at hout

theorem appended_appendEach (n : Ncat) (out text : List UInt8) :
    n.Appended out text (n.appendEach out text) := by
  induction text generalizing out with
  | nil => exact (List.append_nil out).symm
  | cons c text ih => exact (appended_append n out [c]).bind (ih (out ++ [c]))

theorem b64_eq (i : ℕ) : b64 i = Base64.digit (i % 64) := by
  have htable : b64tbl = Base64.alphabet := by decide
  rw [b64, htable, Nat.and_two_pow_sub_one_eq_mod _ 6]
  rfl

/-- The shifts take six bits at a time. -/
theorem b64_first (x : UInt8) : b64 (x.toNat >>> 2) = Base64.digit (x.toNat / 4) := by
  have hx := x.toNat_lt
  rw [b64_eq, Nat.shiftRight_eq_div_pow]
  congr 1
  omega

theorem b64_second (x y : UInt8) :
    b64 (x.toNat <<< 4 + y.toNat >>> 4) = Base64.digit (x.toNat % 4 * 16 + y.toNat / 16) := by
  have hy := y.toNat_lt
  rw [b64_eq, Nat.shiftLeft_eq, Nat.shiftRight_eq_div_pow]
  congr 1
  omega

theorem b64_second_last (x : UInt8) :
    b64 (x.toNat <<< 4) = Base64.digit (x.toNat % 4 * 16) := b64_second x 0

theorem b64_third (x y : UInt8) :
    b64 (x.toNat <<< 2 + y.toNat >>> 6) = Base64.digit (x.toNat % 16 * 4 + y.toNat / 64) := by
  have hy := y.toNat_lt
  rw [b64_eq, Nat.shiftLeft_eq, Nat.shiftRight_eq_div_pow]
  congr 1
  omega

theorem b64_third_last (x : UInt8) :
    b64 (x.toNat <<< 2) = Base64.digit (x.toNat % 16 * 4) := b64_third x 0

theorem ok_bind {ε α β : Type} (x : α) (f : α → Except ε β) : (Except.ok x >>= f) = f x := rfl

theorem map_eq {ε α β : Type} (r : Except ε α) (f : α → β) : r.map f = f <$> r := rfl

/-- The characters of a group, and what is left of the size behind it. -/
def fourOf : List UInt8 → List UInt8
  | [] => []
  | [a] => Base64.encode [a]
  | [a, b] => Base64.encode [a, b]
  | a :: b :: c :: _ => Base64.encode [a, b, c]

theorem b64_last (x : UInt8) : b64 x.toNat = Base64.digit (x.toNat % 64) := b64_eq x.toNat

theorem appendFour_eq (n : Ncat) (src out : List UInt8) (h : src ≠ []) :
    appendFour n src src.length out =
      (n.appendEach out (fourOf src)).map fun out => (src.length - 3, out) := by
  rcases src with _ | ⟨a, _ | ⟨b, _ | ⟨c, bs⟩⟩⟩
  · exact absurd rfl h
  · simp [appendFour, byteOf, ok_bind, b64_first, b64_second_last, Ncat.appendEach, fourOf,
      Base64.encode, Base64.padding, map_eq]
  · simp [appendFour, byteOf, ok_bind, b64_first, b64_second, b64_third_last, Ncat.appendEach,
      fourOf, Base64.encode, Base64.padding, map_eq]
  · simp [appendFour, byteOf, ok_bind, b64_first, b64_second, b64_third, b64_last,
      Ncat.appendEach, fourOf, Base64.encode, map_eq]

theorem encode_eq_four (src : List UInt8) :
    Base64.encode src = fourOf src ++ Base64.encode (src.drop 3) := by
  rcases src with _ | ⟨a, _ | ⟨b, _ | ⟨c, bs⟩⟩⟩ <;> simp [Base64.encode, fourOf]

theorem appended_bytesToStringFrom (n : Ncat) (fuel : ℕ) (src out : List UInt8)
    (h : src.length ≤ fuel) :
    n.Appended out (Base64.encode src) (bytesToStringFrom n fuel src src.length out) := by
  induction fuel generalizing src out with
  | zero =>
    obtain rfl := List.eq_nil_of_length_eq_zero (Nat.le_zero.mp h)
    exact (List.append_nil out).symm
  | succ fuel ih =>
    rcases hsrc : src with _ | ⟨a, as⟩
    · exact (List.append_nil out).symm
    rw [← hsrc]
    have hloop : bytesToStringFrom n (fuel + 1) src src.length out =
        n.appendEach out (fourOf src) >>= fun out =>
          bytesToStringFrom n fuel (src.drop 3) (src.length - 3) out := by
      have hne : src ≠ [] := hsrc ▸ List.cons_ne_nil a as
      have hfour := appendFour_eq n src out hne
      rw [show src.length = as.length + 1 by rw [hsrc, List.length_cons]] at hfour ⊢
      rw [bytesToStringFrom, hfour, map_eq, bind_map_left]
    rw [hloop, encode_eq_four]
    refine (appended_appendEach n out (fourOf src)).bind ?_
    rw [← List.length_drop]
    apply ih
    have hpos : 0 < src.length := by simp [hsrc]
    rw [List.length_drop]
    omega

end

/-- The text of a byte string is base64, of which no byte but its own was read; it is appended
unless the function that appends fails. -/
theorem bytes_to_string_base64 (n : Ncat) (src out : List UInt8) :
    (∀ out', bytesToString n src src.length out = .ok out' → ∃ text, out' = out ++ text ∧
      text.length = 4 * ((src.length + 2) / 3) ∧
      (∃ body, (∀ c ∈ body, c ∈ Base64.alphabet) ∧
        text = body ++ List.replicate ((3 - src.length % 3) % 3) Base64.padding) ∧
      Base64.decode text = some src) ∧
    bytesToString n src src.length out ≠ .error .outside ∧
    ((∀ out text e, n.ncat out text ≠ .error e) →
      ∃ out', bytesToString n src src.length out = .ok out') := by
  have h := appended_bytesToStringFrom n src.length src out le_rfl
  change n.Appended out (Base64.encode src) (bytesToString n src src.length out) at h
  rcases hr : bytesToString n src src.length out with (_ | e) | out' <;> rw [hr] at h
  · exact h.elim
  · obtain ⟨out₁, text, he⟩ := h
    exact ⟨nofun, nofun, fun hall => absurd he (hall out₁ text e)⟩
  · refine ⟨?_, nofun, fun _ => ⟨out', rfl⟩⟩
    rintro _ ⟨⟩
    exact ⟨Base64.encode src, h, Base64.length_encode src, Base64.encode_padded src,
      Base64.decode_encode src⟩

example : bytesToString plainNcat (ascii "fooba") 5 [] = .ok (ascii "Zm9vYmE=") := by decide

end LibPrelude
