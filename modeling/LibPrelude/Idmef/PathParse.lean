import LibPrelude.Idmef.ValueRead

/-! # Reading paths

The name of a path is split at the dots. Each part names a child of the class that
the parts before it lead to, and may have an index between parentheses when the child
is a list: a number, one of the marks for the ends of the list, a mark for every
element, or a quoted key.
-/

namespace LibPrelude

def maxDepth : ℕ := 16
def maxNameLen : ℕ := 128

def FieldDesc.childNames (d : FieldDesc) : List String :=
  match d.type with
  | .union members => members.map Member.name
  | _ => [d.name]

def IdmefClassId.childNames (cls : IdmefClassId) : List String :=
  cls.fields.flatMap FieldDesc.childNames

def idmefClassFindChild (cls : IdmefClassId) (name : List UInt8) : Except ErrorCode ℕ :=
  match cls.childNames.findIdx? fun n => strcasecmp (ascii n) name with
  | none => .error .idmefClassUnknownChild
  | some child => .ok child

def Child.isKeyedList (c : Child) : Bool :=
  match c.type with
  | .structList _ keyed => keyed
  | _ => false

/-- The number at the start of a text as a 64-bit integer clamps it and an `int` holds it, unless
there is no number. -/
def strtolInt (str : List UInt8) : Option ℤ :=
  let (neg, bs) :=
    match str.dropWhile isSpace with
    | 45 :: bs => (true, bs)
    | 43 :: bs => (false, bs)
    | bs => (false, bs)
  let (base, bs) := numberBase bs
  let digits := bs.takeWhile (digitOf · < base)
  if digits = [] then none
  else
    let n : ℤ := numberIn base digits
    some (Int.bmod (max (-2 ^ 63) (min (2 ^ 63 - 1) (if neg then -n else n))) (2 ^ 32))

def splitAtByte (b : UInt8) (s : List UInt8) : List UInt8 × Option (List UInt8) :=
  (s.takeWhile (· ≠ b), (s.dropWhile (· ≠ b)).tail?)

/-- The index that the text between the parentheses stands for and its key. -/
def parseIndex (tok : List UInt8) : Except ErrorCode (ℤ × Option (List UInt8)) :=
  if tok = ascii "<<" then .ok (idmefListPrepend, none)
  else if tok = ascii ">>" then .ok (idmefListAppend, none)
  else if (tok.head? = some 39 ∨ tok.head? = some 34) ∧ tok.getLast? = tok.head? then
    .ok (indexKey, some (tok.drop 1).dropLast)
  else if tok = ascii "*" then .ok (indexUndefined, none)
  else
    match strtolInt tok with
    | none => .error .generic
    | some index => .ok (index, none)

/-- The name in a part of a path and its index. -/
def parsePart (part : List UInt8) : Except ErrorCode (List UInt8 × ℤ × Option (List UInt8)) :=
  match splitAtByte 40 part with
  | (name, none) => .ok (name, indexUndefined, none)
  | (name, some rest) =>
    match splitAtByte 41 rest with
    | (_, none) => .error .generic
    | (tok, some _) => (parseIndex tok).map fun index => (name, index)

/-- The step that a part stands for and the child that it leads to. -/
def parseElement (cls : IdmefClassId) (part : List UInt8) :
    Except ErrorCode (IdmefPathElement × Child) :=
  match parsePart part with
  | .error e => .error e
  | .ok (name, index, key) =>
    match idmefClassFindChild cls name with
    | .error e => .error e
    | .ok child =>
      match cls.children[child]? with
      | none => .error .idmefClassUnknownChild
      | some c =>
        if index = indexUndefined then
          .ok (⟨if c.isList then indexUndefined else indexForbidden, key, child⟩, c)
        else if ¬ c.isList then .error .idmefPathIndexForbidden
        else if index = indexKey ∧ ¬ c.isKeyedList then .error .idmefPathIndexForbidden
        else .ok (⟨index, key, child⟩, c)

theorem parseElement_ok {cls : IdmefClassId} {part : List UInt8} {e : IdmefPathElement} {c : Child}
    (h : parseElement cls part = .ok (e, c)) :
    cls.children[e.position]? = some c ∧ (c.isList ∨ e.index = indexForbidden) := by
  unfold parseElement at h
  split at h
  · cases h
  · split at h
    · cases h
    · split at h
      · cases h
      · rename_i hc
        split_ifs at h with hu hl hk
        · cases h
          exact ⟨hc, .inl hl⟩
        · cases h
          exact ⟨hc, .inr rfl⟩
        · cases h
          exact ⟨hc, .inl hk⟩

theorem validElements_singleton {cls : IdmefClassId} {e : IdmefPathElement} {c : Child}
    (hc : cls.children[e.position]? = some c) (hindex : c.isList ∨ e.index = indexForbidden) :
    ValidElements cls [e] := by
  simp only [ValidElements, hc]
  refine ⟨hindex, ?_⟩
  split <;> trivial

theorem validElements_step {cls cls' : IdmefClassId} {e : IdmefPathElement} {c : Child}
    {es : List IdmefPathElement} (hc : cls.children[e.position]? = some c)
    (hindex : c.isList ∨ e.index = indexForbidden) (hcls : c.cls = some cls')
    (hes : ValidElements cls' es) : ValidElements cls (e :: es) := by
  simp only [ValidElements, hc, hcls]
  exact ⟨hindex, hes⟩

/-- The steps of a name from a class on, given how many may follow the first one. -/
def parseElements : ℕ → IdmefClassId → List UInt8 → Except ErrorCode (List IdmefPathElement)
  | n, cls, text =>
    match parseElement cls (splitAtByte 46 text).1 with
    | .error err => .error err
    | .ok (e, c) =>
      if c.valueType ≠ .class ∧ (splitAtByte 46 text).2.isSome then .error .generic
      else
        match n with
        | 0 => .error .idmefPathDepth
        | n + 1 =>
          match (splitAtByte 46 text).2, c.cls with
          | some rest, some cls' => (parseElements n cls' rest).map (e :: ·)
          | some _, none => .error .generic
          | none, _ => .ok [e]

theorem parseElements_valid {n : ℕ} {cls : IdmefClassId} {text : List UInt8}
    {es : List IdmefPathElement} (h : parseElements n cls text = .ok es) :
    ValidElements cls es := by
  induction n generalizing cls text es with
  | zero =>
    unfold parseElements at h
    split at h
    · cases h
    · split_ifs at h
  | succ n ih =>
    unfold parseElements at h
    split at h
    · cases h
    · rename_i e c he
      obtain ⟨hc, hindex⟩ := parseElement_ok he
      split_ifs at h
      simp only at h
      split at h
      · rename_i rest cls' _ hcls
        rcases hes : parseElements n cls' rest with err | es' <;> rw [hes] at h <;> cases h
        exact validElements_step hc hindex hcls (ih hes)
      · cases h
      · cases h
        exact validElements_singleton hc hindex

def idmefPathNewFast (buffer : List UInt8) : Except ErrorCode IdmefPath :=
  if maxNameLen ≤ buffer.length + 1 then .error .idmefPathLength
  else if buffer = [] then .ok ⟨.message, [], trivial⟩
  else
    match h : parseElements (maxDepth - 1) .message buffer with
    | .error e => .error e
    | .ok es => .ok ⟨.message, es, parseElements_valid h⟩

theorem idmefPathNewFast_eq {buffer : List UInt8} {path : IdmefPath}
    (h : (idmefPathNewFast buffer).map (fun p => (p.topClass, p.elements)) =
      .ok (path.topClass, path.elements)) : idmefPathNewFast buffer = .ok path := by
  rcases hp : idmefPathNewFast buffer with e | p
  · rw [hp] at h
    cases h
  · rw [hp] at h
    obtain ⟨htop, helements⟩ := Prod.mk.inj (Except.ok.inj h)
    cases p
    cases path
    subst htop helements
    rfl

end LibPrelude
